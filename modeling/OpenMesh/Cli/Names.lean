import OpenMesh.Core.Hex
import OpenMesh.Library.Inverses
import OpenMesh.Library.Runs
import OpenMesh.Net.Transport

namespace OpenMesh.Cli.Names

open OpenMesh.Core.Buffers OpenMesh.Core.Hex OpenMesh.Net.Transport
open OpenMesh.Library.Runs OpenMesh.Library.Inverses

def nibble (c : UInt8) : Option UInt8 :=
  if 0x30 ≤ c ∧ c ≤ 0x39 then some (c - 0x30)
  else if 0x61 ≤ c ∧ c ≤ 0x66 then some (c - 0x61 + 10)
  else if 0x41 ≤ c ∧ c ≤ 0x46 then some (c - 0x41 + 10)
  else none

def fromHex : Bytes → Option Bytes
  | [] => some []
  | [_] => none
  | hi :: lo :: hex => match nibble hi, nibble lo, fromHex hex with
    | some hi, some lo, some out => some ((hi <<< 4 ||| lo) :: out)
    | _, _, _ => none

def token (text : Bytes) : Bytes × Bytes :=
  let text := text.dropWhile isSpace
  (text.takeWhile (!isSpace ·), text.dropWhile (!isSpace ·))

def slash : UInt8 := 0x2F
/-- `"/add"`. -/
def addWord : Bytes := [slash, 0x61, 0x64, 0x64]
/-- `"/accept"`. -/
def acceptWord : Bytes := [slash, 0x61, 0x63, 0x63, 0x65, 0x70, 0x74]
/-- `"/reject"`. -/
def rejectWord : Bytes := [slash, 0x72, 0x65, 0x6A, 0x65, 0x63, 0x74]
/-- `"/msg"`. -/
def msgWord : Bytes := [slash, 0x6D, 0x73, 0x67]

structure ChatApp where
  nameToPk : Table Bytes := ∅
  pkToName : Table Bytes := ∅
  current : Bytes := []

namespace ChatApp

def digits (pk : Bytes) : Bytes := (toHex pk).take 8

def nameOf (app : ChatApp) (pk : Bytes) : Bytes := (app.pkToName.lookup (toHex pk)).getD (digits pk)

def enter (app : ChatApp) (name pk : Bytes) : ChatApp :=
  { app with
    nameToPk := app.nameToPk.insert name pk
    pkToName := app.pkToName.insert (toHex pk) name }

def autoAlias (app : ChatApp) (pk : Bytes) : ChatApp × Bytes :=
  match app.pkToName.lookup (toHex pk) with
  | some name => (app, name)
  | none => (app.enter (digits pk) pk, digits pk)

def resolve (app : ChatApp) (word : Bytes) : Option Bytes :=
  match app.nameToPk.lookup word with
  | some pk => some pk
  | none => (fromHex word).filter (·.length = 32)

/-- The name and the key that `/add` is called with, where it does not show its usage. -/
def addArguments (text : Bytes) : Option (Bytes × Bytes) :=
  let (name, text) := token text
  let (pkhex, _) := token text
  match fromHex pkhex with
  | some pk => if name = [] ∨ pk.length ≠ 32 then none else some (name, pk)
  | none => none

def cmdAdd (app : ChatApp) (text : Bytes) : ChatApp × Option Bytes :=
  match addArguments text with
  | some (name, pk) => ({ app.enter name pk with current := pk }, some pk)
  | none => (app, none)

/-- `ok` is the answer of the engine. -/
def cmdDecide (app : ChatApp) (ok : Bool) (text : Bytes) : ChatApp × Option Bytes :=
  match app.resolve (token text).1 with
  | some pk => (if ok then { app with current := pk } else app, some pk)
  | none => (app, none)

def cmdMsg (app : ChatApp) (text : Bytes) : ChatApp × Option Bytes :=
  match app.resolve (token text).1 with
  | some pk => ({ app with current := pk }, some pk)
  | none => (app, none)

def sendCurrent (app : ChatApp) : ChatApp × Option Bytes :=
  (app, if app.current = [] then none else some app.current)

def handle (app : ChatApp) (ok : Bool) (line : Bytes) : ChatApp × Option Bytes :=
  match line with
  | [] => (app, none)
  | c :: _ =>
    if c ≠ slash then app.sendCurrent
    else
      let (cmd, text) := token line
      if cmd = addWord then app.cmdAdd text
      else if cmd = acceptWord ∨ cmd = rejectWord then app.cmdDecide ok text
      else if cmd = msgWord then app.cmdMsg text
      else (app, none)

inductive Event where
  | line (text : Bytes) (ok : Bool)
  | message (peer : Bytes)
  | contactRequest (peer : Bytes)
  | contactResponse (peer : Bytes)

def step (app : ChatApp) : Event → ChatApp
  | .line text ok => (app.handle ok text).1
  | .contactRequest peer => (app.autoAlias peer).1
  | .message _ | .contactResponse _ => app

/-- The peer that something has come from, and the name that is printed for it. -/
def shows (app : ChatApp) : Event → Option (Bytes × Bytes)
  | .line _ _ => none
  | .contactRequest peer => some (peer, (app.autoAlias peer).2)
  | .message peer | .contactResponse peer => some (peer, app.nameOf peer)

end ChatApp

open ChatApp

/-- Names and keys are the inverse of each other, and every name that was printed for a peer
is a name of that peer. -/
structure OneToOne (h : History ChatApp Event) (app : ChatApp) : Prop where
  inverse : Inverse app.nameToPk.lookup fun pk => app.pkToName.lookup (toHex pk)
  resolves : ∀ m ∈ h, ∀ p ∈ m.1.shows m.2, app.resolve p.2 = some p.1

def added : Bytes → Option (Bytes × Bytes)
  | [] => none
  | c :: line =>
    if c = slash ∧ (token (c :: line)).1 = addWord then addArguments (token (c :: line)).2 else none

/-- A name and a key are added that are each other's, or new both of them; a peer without a
name gets digits that are nobody's name, and it does so before it is shown. -/
def Distinct (m : ChatApp × Event) : Prop :=
  match m.2 with
  | .line text _ => ∀ p ∈ added text,
    Free m.1.nameToPk.lookup (fun pk => m.1.pkToName.lookup (toHex pk)) p.1 p.2
  | .contactRequest peer => m.1.pkToName.lookup (toHex peer) = none →
    m.1.nameToPk.lookup (digits peer) = none
  | .message peer | .contactResponse peer => m.1.pkToName.lookup (toHex peer) ≠ none

variable {app : ChatApp} {h : History ChatApp Event}

theorem fromHex_length {hex out : Bytes} (h : fromHex hex = some out) :
    hex.length = 2 * out.length := by
  induction hex using fromHex.induct generalizing out with
  | case1 =>
    cases h
    rfl
  | case2 c => cases h
  | case3 hi lo hex hi' lo' out' hout hlo hhi ih =>
    simp only [fromHex, hhi, hlo, hout, Option.some.injEq] at h
    rw [← h, List.length_cons, List.length_cons, List.length_cons, ih hout]
    omega
  | case4 hi lo hex hnone ih =>
    simp only [fromHex] at h
    cases h

theorem resolve_digits {pk : Bytes} (peer : Bytes) (h : app.resolve (digits peer) = some pk) :
    app.nameToPk.lookup (digits peer) = some pk := by
  unfold resolve at h
  split at h
  · next hn => rw [hn, h]
  · obtain ⟨hhex, hlen⟩ := Option.filter_eq_some_iff.mp h
    have htwice := fromHex_length hhex
    have hshort : (digits peer).length ≤ 8 := List.length_take_le _ _
    rw [decide_eq_true_eq] at hlen
    omega

theorem resolve_of_lookup {name pk : Bytes} (h : app.nameToPk.lookup name = some pk) :
    app.resolve name = some pk := by
  unfold resolve
  rw [h]

def named (app : ChatApp) (pk : Bytes) : Option Bytes := app.pkToName.lookup (toHex pk)

def entered (app : ChatApp) : Event → Option (Bytes × Bytes)
  | .line text _ => added text
  | .contactRequest peer => if named app peer = none then some (digits peer, peer) else none
  | .message _ | .contactResponse _ => none

theorem enter_lookup (app : ChatApp) (name pk : Bytes) :
    (app.enter name pk).nameToPk.lookup = Function.update app.nameToPk.lookup name (some pk) ∧
      named (app.enter name pk) = Function.update (named app) pk (some name) := by
  constructor
  · funext word
    by_cases hw : word = name
    · rw [hw, Function.update_self]
      exact AList.lookup_insert _
    · rw [Function.update_of_ne hw]
      exact AList.lookup_insert_ne hw
  · funext key
    by_cases hk : key = pk
    · rw [hk, Function.update_self]
      exact AList.lookup_insert _
    · rw [Function.update_of_ne hk]
      exact AList.lookup_insert_ne (by rwa [ne_eq, toHex_inj])

theorem autoAlias_old {peer name : Bytes} (h : named app peer = some name) :
    app.autoAlias peer = (app, name) := by
  unfold autoAlias
  rw [show app.pkToName.lookup (toHex peer) = some name from h]

theorem autoAlias_new {peer : Bytes} (h : named app peer = none) :
    app.autoAlias peer = (app.enter (digits peer) peer, digits peer) := by
  unfold autoAlias
  rw [show app.pkToName.lookup (toHex peer) = none from h]

theorem handle_tables (app : ChatApp) (ok : Bool) (text : Bytes) :
    added text = none ∧ (app.handle ok text).1.nameToPk = app.nameToPk ∧
      (app.handle ok text).1.pkToName = app.pkToName ∨
    ∃ name pk, added text = some (name, pk) ∧
      (app.handle ok text).1.nameToPk = (app.enter name pk).nameToPk ∧
      (app.handle ok text).1.pkToName = (app.enter name pk).pkToName := by
  cases text with
  | nil => exact Or.inl ⟨rfl, rfl, rfl⟩
  | cons c line =>
    unfold handle added
    dsimp only
    by_cases hc : c = slash
    · have hslash : ¬ c ≠ slash := not_not.mpr hc
      simp only [if_neg hslash]
      by_cases hadd : (token (c :: line)).1 = addWord
      · simp only [if_pos (And.intro hc hadd), if_pos hadd, cmdAdd]
        cases hargs : addArguments (token (c :: line)).2 with
        | none => exact Or.inl ⟨rfl, rfl, rfl⟩
        | some p => exact Or.inr ⟨p.1, p.2, rfl, rfl, rfl⟩
      · have hother : ¬ (c = slash ∧ (token (c :: line)).1 = addWord) := fun hboth => hadd hboth.2
        simp only [if_neg hother, if_neg hadd]
        refine Or.inl ⟨trivial, ?_⟩
        split_ifs
        · unfold cmdDecide
          split
          · split <;> exact ⟨rfl, rfl⟩
          · exact ⟨rfl, rfl⟩
        · unfold cmdMsg
          split <;> exact ⟨rfl, rfl⟩
        · exact ⟨rfl, rfl⟩
    · have hother : ¬ (c = slash ∧ (token (c :: line)).1 = addWord) := fun hboth => hc hboth.1
      simp only [if_pos (show c ≠ slash from hc), if_neg hother]
      exact Or.inl ⟨trivial, rfl, rfl⟩

theorem step_tables (app : ChatApp) (event : Event) :
    entered app event = none ∧ (app.step event).nameToPk = app.nameToPk ∧
      (app.step event).pkToName = app.pkToName ∨
    ∃ name pk, entered app event = some (name, pk) ∧
      (app.step event).nameToPk = (app.enter name pk).nameToPk ∧
      (app.step event).pkToName = (app.enter name pk).pkToName := by
  cases event with
  | line text ok => exact handle_tables app ok text
  | message peer => exact Or.inl ⟨rfl, rfl, rfl⟩
  | contactResponse peer => exact Or.inl ⟨rfl, rfl, rfl⟩
  | contactRequest peer =>
    unfold entered step
    dsimp only
    cases hn : named app peer with
    | some name =>
      rw [autoAlias_old hn]
      exact Or.inl ⟨rfl, rfl, rfl⟩
    | none =>
      rw [autoAlias_new hn]
      exact Or.inr ⟨digits peer, peer, rfl, rfl, rfl⟩

theorem step_inverse (event : Event) (h : Inverse app.nameToPk.lookup (named app)) :
    Inverse (app.step event).nameToPk.lookup (named (app.step event)) ↔
      ∀ p ∈ entered app event, Free app.nameToPk.lookup (named app) p.1 p.2 := by
  obtain ⟨he, hname, hkey⟩ | ⟨name, pk, he, hname, hkey⟩ := step_tables app event
  · have hnamed : named (app.step event) = named app := by
      funext pk
      rw [named, hkey, named]
    rw [hname, hnamed, he]
    exact iff_of_true h nofun
  · have hnamed : named (app.step event) = named (app.enter name pk) := by
      funext pk
      rw [named, hkey, named]
    rw [hname, hnamed, he, (enter_lookup app name pk).1, (enter_lookup app name pk).2,
      inverse_update h]
    exact ⟨fun free p hp => Option.some.inj hp ▸ free, fun free => free _ rfl⟩

theorem step_keeps {event : Event} {name pk : Bytes}
    (free : ∀ p ∈ entered app event, Free app.nameToPk.lookup (named app) p.1 p.2)
    (h : app.nameToPk.lookup name = some pk) : (app.step event).nameToPk.lookup name = some pk := by
  obtain ⟨he, hname, hkey⟩ | ⟨name', pk', he, hname, hkey⟩ := step_tables app event
  · rw [hname, h]
  · rw [hname]
    exact (congrFun (enter_lookup app name' pk').1 name).trans ((free _ he).keeps h)

theorem distinct_iff (event : Event) (h : Inverse app.nameToPk.lookup (named app)) :
    Distinct (app, event) ↔
      (∀ p ∈ entered app event, Free app.nameToPk.lookup (named app) p.1 p.2) ∧
      (∀ peer, event = .message peer ∨ event = .contactResponse peer → named app peer ≠ none) := by
  cases event with
  | line text ok => exact (and_iff_left nofun).symm
  | message peer | contactResponse peer =>
    constructor
    · rintro hnamed
      refine ⟨nofun, fun r hr => ?_⟩
      obtain rfl : peer = r := by simpa using hr
      exact hnamed
    · exact fun hboth => hboth.2 peer (by simp)
  | contactRequest peer =>
    refine Iff.trans ?_ (and_iff_left nofun).symm
    unfold Distinct entered
    dsimp only
    split
    · next hnone =>
      constructor
      · rintro hfree p hp
        obtain rfl := Option.some.inj hp
        exact Or.inr ⟨hfree hnone, hnone⟩
      · intro hfree _
        obtain hsame | ⟨hn, -⟩ := hfree _ rfl
        · cases ((h _ _).mp hsame).symm.trans hnone
        · exact hn
    · next hsome => exact iff_of_true (fun hnone => absurd hnone hsome) nofun

/-- What accompanies every state: the name of a peer once printed is in the table. -/
def Kept (h : History ChatApp Event) (app : ChatApp) : Prop :=
  Inverse app.nameToPk.lookup (named app) ∧
    ∀ m ∈ h, ∀ p ∈ m.1.shows m.2, app.nameToPk.lookup p.2 = some p.1

theorem kept_step {event : Event} (kept : Kept h app) (distinct : Distinct (app, event)) :
    Kept ((app, event) :: h) (app.step event) := by
  obtain ⟨hinverse, hold⟩ := kept
  obtain ⟨free, hnamed⟩ := (distinct_iff event hinverse).mp distinct
  refine ⟨(step_inverse event hinverse).mpr free, fun m hm p hp => ?_⟩
  obtain rfl | hm := List.mem_cons.mp hm
  · have hshown : ∀ {peer name}, named app peer = some name → nameOf app peer = name ∧
        app.nameToPk.lookup name = some peer := by
      intro peer name hn
      refine ⟨?_, (hinverse name peer).mpr hn⟩
      rw [nameOf, show app.pkToName.lookup (toHex peer) = some name from hn, Option.getD_some]
    cases event with
    | line text ok => cases hp
    | message peer | contactResponse peer =>
      obtain rfl := Option.some.inj hp
      obtain ⟨name, hn⟩ := Option.ne_none_iff_exists'.mp (hnamed peer (by simp))
      rw [(hshown hn).1]
      exact (hshown hn).2
    | contactRequest peer =>
      obtain rfl := Option.some.inj hp
      unfold step
      cases hn : named app peer with
      | some name =>
        dsimp only
        rw [autoAlias_old hn]
        exact (hshown hn).2
      | none =>
        dsimp only
        rw [autoAlias_new hn]
        exact (congrFun (enter_lookup app _ _).1 _).trans (Function.update_self _ _ _)
  · exact step_keeps free (hold m hm p hp)

theorem distinct_of {event : Event} (before : OneToOne h app)
    (after : OneToOne ((app, event) :: h) (app.step event)) : Distinct (app, event) := by
  refine (distinct_iff event before.inverse).mpr
    ⟨(step_inverse event before.inverse).mp after.inverse, fun peer hpeer hnone => ?_⟩
  have hdigits : nameOf app peer = digits peer := by
    rw [nameOf, show app.pkToName.lookup (toHex peer) = none from hnone, Option.getD_none]
  have hresolves : app.resolve (digits peer) = some peer := by
    rw [← hdigits]
    obtain rfl | rfl := hpeer
    · exact after.resolves _ List.mem_cons_self _ rfl
    · exact after.resolves _ List.mem_cons_self _ rfl
  have hback := (before.inverse _ _).mp (resolve_digits peer hresolves)
  cases hback.symm.trans hnone

/-- Names and keys agree one to one in every state, exactly if every pair that is entered is a
new one, and only peers with a name are heard of. -/
theorem names_one_to_one (run : Run step (fun _ _ _ => True) {} h app) :
    Run.Throughout OneToOne h app ↔ Run.Each (fun _ m => Distinct m) h := by
  have hstart : Inverse ({} : ChatApp).nameToPk.lookup (named {}) := inverse_empty
  have oneToOne : ∀ {h app}, Kept h app → OneToOne h app := fun kept =>
    ⟨kept.1, fun m hm p hp => resolve_of_lookup (kept.2 m hm p hp)⟩
  have hkept : ∀ {h app}, Run step (fun _ _ _ => True) {} h app →
      Run.Each (fun _ m => Distinct m) h → Kept h app := by
    intro h app run distinct
    induction run with
    | start => exact ⟨hstart, nofun⟩
    | move _ _ ih => exact kept_step (ih distinct.2) distinct.1
  induction run with
  | start => exact iff_of_true (oneToOne ⟨hstart, nofun⟩) trivial
  | move run hok ih =>
    constructor
    · exact fun ⟨after, before⟩ => ⟨distinct_of before.last after, ih.mp before⟩
    · exact fun distinct => ⟨oneToOne (hkept (.move run hok) distinct), ih.mpr distinct.2⟩

def addingBob (b : UInt8) : Event :=
  .line (addWord ++ 0x20 :: [0x62, 0x6F, 0x62] ++ 0x20 :: toHex (List.replicate 32 b)) true

def calling : History ChatApp Event × ChatApp :=
  Run.replay step [] {} [addingBob 1, .message (List.replicate 32 1), .contactRequest [2]]

instance (m : ChatApp × Event) : Decidable (Distinct m) := by
  unfold Distinct Free
  split <;> infer_instance

theorem names_one_to_one_calling : Run.Throughout OneToOne calling.1 calling.2 :=
  (names_one_to_one (Run.replay_run .start (Run.lawful_of_forall (fun _ _ _ => trivial) _ _ _))).mpr
    (by decide +kernel)

/-- A second peer is called bob. -/
def reusing : History ChatApp Event × ChatApp :=
  Run.replay step [] {} [addingBob 1, addingBob 2, .message (List.replicate 32 1)]

theorem reused_name :
    Run step (fun _ _ _ => True) {} reusing.1 reusing.2 ∧ ¬ OneToOne reusing.1 reusing.2 ∧
    reusing.2.nameOf (List.replicate 32 1) = [0x62, 0x6F, 0x62] ∧
    reusing.2.resolve [0x62, 0x6F, 0x62] = some (List.replicate 32 2) := by
  have hnames : reusing.2.pkToName.lookup (toHex (List.replicate 32 1)) = some [0x62, 0x6F, 0x62] ∧
      reusing.2.nameToPk.lookup [0x62, 0x6F, 0x62] = some (List.replicate 32 2) := by decide +kernel
  refine ⟨Run.replay_run .start (Run.lawful_of_forall (fun _ _ _ => trivial) _ _ _), fun h => ?_,
    by decide +kernel, by decide +kernel⟩
  have hback := hnames.2.symm.trans ((h.inverse _ _).mpr hnames.1)
  exact absurd (Option.some.inj hback) (by decide)

end OpenMesh.Cli.Names
