import OpenMesh.Cli.Names
import OpenMesh.Messaging.Lifetimes

namespace OpenMesh.Cli.Selection

open OpenMesh.Core.Buffers OpenMesh.Core.Hex OpenMesh.Crypto.Primitives
open OpenMesh.Crypto.Reference OpenMesh.Library.Runs OpenMesh.Net.Transport
open OpenMesh.Storage.Database OpenMesh.Messaging.Operations OpenMesh.Messaging.Pairs
open OpenMesh.Cli.Names

def text (s : String) : Bytes := s.toUTF8.data.toList

def space : UInt8 := 0x20
/-- `"/send"`. -/
def sendWord : Bytes := [slash, 0x73, 0x65, 0x6E, 0x64]

structure Item where
  isRequest : Bool := false
  pk : Bytes
  name : Bytes
  subtitle : Bytes
  sortKey : Int64 := 0
  deriving DecidableEq

/-- `std::sort`, newest first. What it does with items of the same time it does not say. -/
structure Sorting where
  sort : List Item → List Item
  perm : ∀ items, (sort items).Perm items
  ordered : ∀ items, (sort items).Pairwise fun a b => ¬ a.sortKey < b.sortKey

inductive Key where
  | up | down | ppage | npage | resize | backspace | enter
  | code (ch : Nat)

structure Tui where
  engine : Engine
  items : List Item := []
  nChats : Nat := 0
  selected : Nat := 0
  scroll : Nat := 0
  input : Bytes := []
  queue : List Bytes := []
  flash : Bytes := []

namespace Tui

def nameOf (c : Contact) : Bytes :=
  if c.nickname ≠ [] then c.nickname else (toHex c.publicKey).take 8

def chat (e : Engine) (c : Contact) : Item :=
  let conv := e.contacts.conversation c.publicKey
  { pk := c.publicKey
    name := nameOf c
    sortKey := match conv.getLast? with
      | none => 0
      | some m => m.timestamp
    subtitle := match conv.getLast? with
      | none => []
      | some m => (if m.outgoing then text "you: " else []) ++ m.text }

def accepted (e : Engine) : List Contact := e.contacts.contacts.filter (·.trust = .accepted)

def request (e : Engine) (q : Request) : Item where
  isRequest := true
  pk := q.peer
  name := match (e.contacts.contacts.filter fun c => c.publicKey = q.peer ∧ c.nickname ≠ []).getLast? with
    | none => (toHex q.peer).take 8
    | some c => c.nickname
  subtitle := q.greeting

variable (S : Sorting)

def newest (e : Engine) : List Item := S.sort ((accepted e).map (chat e))

/-- What is drawn of the selected item is left out. -/
def buildSnapshot (t : Tui) : Tui :=
  let items := newest S t.engine ++ t.engine.pendingRequests.map (request t.engine)
  { t with
    items
    nChats := (accepted t.engine).length
    selected := min t.selected (items.length - 1) }

def selectedItem (t : Tui) : Option Item := t.items[t.selected]?

def submit (t : Tui) (cmd : Bytes) : Tui := { t with queue := t.queue ++ [cmd] }

def erase (t : Tui) : Tui := { t with input := t.input.dropLast }

def type (t : Tui) (ch : Nat) : Tui :=
  if 32 ≤ ch ∧ ch < 256 then { t with input := t.input ++ [UInt8.ofNat ch] } else t

def handleEnter (t : Tui) : Tui :=
  let line := t.input
  let t := { t with input := [] }
  match line with
  | [] => t
  | c :: _ =>
    if c ≠ slash then
      match t.selectedItem with
      | some it =>
        if it.isRequest then { t with flash := text "select a chat to message" }
        else t.submit (sendWord ++ space :: toHex it.pk ++ space :: line)
      | none => { t with flash := text "select a chat to message" }
    else
      let cmd := (token line).1
      if cmd = acceptWord ∨ cmd = rejectWord then
        match t.selectedItem with
        | some it =>
          if it.isRequest then t.submit (cmd ++ space :: toHex it.pk)
          else { t with flash := text "select a request first" }
        | none => { t with flash := text "select a request first" }
      else t.submit line

/-- `'a'` and `'r'` are 97 and 114. -/
def onKey (t : Tui) : Key → Tui
  | .up => { t with selected := t.selected - 1, scroll := 0 }
  | .down => { t with selected := t.selected + 1, scroll := 0 }
  | .ppage => { t with scroll := t.scroll + 3 }
  | .npage => { t with scroll := t.scroll - 3 }
  | .resize => t
  | .backspace => t.erase
  | .enter => t.handleEnter
  | .code ch =>
    if ch = 127 ∨ ch = 8 then t.erase
    else if ch = 10 then t.handleEnter
    else if t.input = [] ∧ (ch = 97 ∨ ch = 114) then
      match t.selectedItem with
      | some it =>
        if it.isRequest then
          t.submit ((if ch = 97 then acceptWord else rejectWord) ++ space :: toHex it.pk)
        else t.type ch
      | none => t.type ch
    else t.type ch

end Tui

open Tui

/-- The network thread calls the engine; the other one builds the list anew, and takes a key. -/
inductive Move where
  | net (env : Env) (call : Engine.Call)
  | frame
  | key (k : Key)

def step (C : Sodium) (S : Sorting) (t : Tui) : Move → Tui
  | .net env call => { t with engine := (t.engine.call C env call).1 }
  | .frame => t.buildSnapshot S
  | .key k => t.onKey k

/-- The item under the cursor, which is never below the last one. -/
def under (t : Tui) : Option Item := t.items[min t.selected (t.items.length - 1)]?

def cursor : History Tui Move → Tui → Option Bytes
  | [], _ => none
  | (_, .key _) :: _, t => (under t).map (·.pk)
  | (s, _) :: h, _ => cursor h s

/-- As long as this peer is listed it is the selected one. A cursor that a key has moved below
the last item selects nothing before the next frame. -/
def Denotes (h : History Tui Move) (t : Tui) : Prop :=
  ∀ peer ∈ cursor h t, (∃ it ∈ t.items, it.pk = peer) →
    t.selectedItem.map (·.pk) = some peer ∨ t.items.length ≤ t.selected

def Present (e : Engine) (peer : Bytes) : Prop :=
  (∃ c ∈ accepted e, c.publicKey = peer) ∨ ∃ q ∈ e.pendingRequests, q.peer = peer

def lastTime (e : Engine) (c : Contact) : Int64 := (chat e c).sortKey

/-- This many chats have newer messages than the one of the peer. -/
def newer (e : Engine) (c : Contact) : Nat :=
  (accepted e).countP fun d => lastTime e c < lastTime e d

/-- This many chats have no older messages, and its own is one of them. -/
def asNew (e : Engine) (c : Contact) : Nat :=
  (accepted e).countP fun d => lastTime e c ≤ lastTime e d

/-- All the chats are above it, and the requests before it. -/
def Awaits (e : Engine) (place : Nat) (peer : Bytes) : Prop :=
  (accepted e).length ≤ place ∧ ∃ q ∈ e.pendingRequests[place - (accepted e).length]?, q.peer = peer

/-- As many chats as this are newer, and no other is as new; or all of them and as many requests
are before it. -/
def PlacedAt (e : Engine) (place : Nat) (peer : Bytes) : Prop :=
  (∃ c ∈ accepted e, c.publicKey = peer ∧ newer e c = place ∧ asNew e c = place + 1) ∨
  Awaits e place peer

/-- Chats that are as new as each other may stand in any order. -/
def MayBeAt (e : Engine) (place : Nat) (peer : Bytes) : Prop :=
  (∃ c ∈ accepted e, c.publicKey = peer ∧ newer e c ≤ place ∧ place < asNew e c) ∨
  Awaits e place peer

/-- Whenever the list is built, the peer has as many entries above it as the cursor. -/
def Steady (placed : Engine → Nat → Bytes → Prop) (h : History Tui Move) : Tui × Move → Prop
  | (t, .frame) => ∀ peer ∈ cursor h t, Present t.engine peer →
    placed t.engine
      (min t.selected ((accepted t.engine).length + t.engine.pendingRequests.length - 1)) peer
  | _ => True

variable {C : Sodium} {S : Sorting} {t t₀ : Tui} {h : History Tui Move}

theorem newest_length (e : Engine) : (newest S e).length = (accepted e).length := by
  rw [newest, (S.perm _).length_eq, List.length_map]

theorem listed_snapshot (t : Tui) (peer : Bytes) :
    (∃ it ∈ (t.buildSnapshot S).items, it.pk = peer) ↔ Present t.engine peer := by
  simp only [buildSnapshot, newest, List.mem_append, (S.perm _).mem_iff, List.mem_map, or_and_right,
    exists_or, Present]
  refine or_congr ⟨?_, ?_⟩ ⟨?_, ?_⟩
  · rintro ⟨it, ⟨c, hc, rfl⟩, hp⟩
    exact ⟨c, hc, hp⟩
  · rintro ⟨c, hc, hp⟩
    exact ⟨_, ⟨c, hc, rfl⟩, hp⟩
  · rintro ⟨it, ⟨q, hq, rfl⟩, hp⟩
    exact ⟨q, hq, hp⟩
  · rintro ⟨q, hq, hp⟩
    exact ⟨_, ⟨q, hq, rfl⟩, hp⟩

def StandsAt (S : Sorting) (e : Engine) (place : Nat) (peer : Bytes) : Prop :=
  (∃ it ∈ (newest S e)[place]?, it.pk = peer) ∨ Awaits e place peer

theorem stands_snapshot (t : Tui) (place : Nat) (peer : Bytes) :
    ((t.buildSnapshot S).items[place]?).map (·.pk) = some peer ↔ StandsAt S t.engine place peer := by
  rw [buildSnapshot, List.getElem?_append, newest_length, StandsAt, Awaits]
  split
  · next hlt =>
    rw [or_iff_left fun hle => Nat.not_le.mpr hlt hle.1]
    simp
  · next hle =>
    have hnone : (newest S t.engine)[place]? = none := by
      rw [List.getElem?_eq_none_iff, newest_length]
      exact Nat.not_lt.mp hle
    rw [hnone, or_iff_right (by simp), and_iff_right (Nat.not_lt.mp hle), List.getElem?_map]
    simp [request]

/-- In a list with the newest first, the place of a chat is bounded by how many are newer, and
how many are not older. -/
theorem newest_bounds {e : Engine} {place : Nat} {it : Item} (h : (newest S e)[place]? = some it) :
    ∃ c ∈ accepted e, chat e c = it ∧ newer e c ≤ place ∧ place < asNew e c := by
  obtain ⟨hlt, hit⟩ := List.getElem?_eq_some_iff.mp h
  obtain ⟨above, below, hsplit, hlength⟩ : ∃ above below,
      newest S e = above ++ it :: below ∧ above.length = place := by
    refine ⟨(newest S e).take place, (newest S e).drop (place + 1), ?_, ?_⟩
    · rw [← hit, ← List.drop_eq_getElem_cons hlt, List.take_append_drop]
    · rw [List.length_take, Nat.min_eq_left hlt.le]
  have hordered := S.ordered ((accepted e).map (chat e))
  rw [← newest, hsplit, List.pairwise_append, List.pairwise_cons] at hordered
  obtain ⟨-, ⟨hbelow, -⟩, habove⟩ := hordered
  have hmem : it ∈ (accepted e).map (chat e) := by
    rw [← (S.perm _).mem_iff, ← newest, hsplit]
    exact List.mem_append_right _ List.mem_cons_self
  obtain ⟨c, hc, rfl⟩ := List.mem_map.mp hmem
  have hcount : ∀ p : Item → Bool, (accepted e).countP (p ∘ chat e) =
      above.countP p + ((if p (chat e c) then 1 else 0) + below.countP p) := by
    intro p
    rw [← List.countP_map, ← (S.perm _).countP_eq p, ← newest, hsplit, List.countP_append,
      List.countP_cons, Nat.add_comm (below.countP p)]
  refine ⟨c, hc, rfl, ?_, ?_⟩
  · have hnone : below.countP (lastTime e c < ·.sortKey) = 0 := by
      rw [List.countP_eq_zero]
      intro b hb
      rw [decide_eq_true_eq]
      exact hbelow b hb
    have hle := List.countP_le_length (p := fun b : Item => decide (lastTime e c < b.sortKey))
      (l := above)
    have hnewer : newer e c = _ := hcount (lastTime e c < ·.sortKey)
    rw [hnewer, hnone]
    simp only [lastTime, Int64.lt_irrefl, decide_false, Bool.false_eq_true, ↓reduceIte] at *
    omega
  · have hall : above.countP (lastTime e c ≤ ·.sortKey) = above.length := by
      rw [List.countP_eq_length]
      intro a ha
      rw [decide_eq_true_eq]
      exact Int64.not_lt.mp (habove a ha _ List.mem_cons_self)
    have hasNew : asNew e c = _ := hcount (lastTime e c ≤ ·.sortKey)
    rw [hasNew, hall, hlength]
    simp only [lastTime, Int64.le_refl, decide_true, ↓reduceIte]
    omega

theorem standsAt_of_placedAt {e : Engine} {place : Nat} {peer : Bytes} (h : PlacedAt e place peer) :
    StandsAt S e place peer := by
  refine h.imp_left fun ⟨c, hc, hpeer, hnewer, hasNew⟩ => ?_
  have hmem : chat e c ∈ newest S e := (S.perm _).mem_iff.mpr (List.mem_map_of_mem hc)
  obtain ⟨n, hn⟩ := List.mem_iff_getElem?.mp hmem
  obtain ⟨d, -, hchat, hle, hlt⟩ := newest_bounds hn
  have hsame : lastTime e d = lastTime e c := by rw [lastTime, hchat, lastTime]
  rw [newer, hsame, ← newer, hnewer] at hle
  rw [asNew, hsame, ← asNew, hasNew] at hlt
  obtain rfl : n = place := by omega
  exact ⟨chat e c, hn, hpeer⟩

theorem mayBeAt_of_standsAt {e : Engine} {place : Nat} {peer : Bytes} (h : StandsAt S e place peer) :
    MayBeAt e place peer := by
  refine h.imp_left fun ⟨it, hit, hpeer⟩ => ?_
  obtain ⟨c, hc, rfl, hbounds⟩ := newest_bounds hit
  exact ⟨c, hc, hpeer, hbounds⟩

theorem denotes_net (env : Env) (call : Engine.Call) :
    Denotes ((t, .net env call) :: h) (step C S t (.net env call)) ↔ Denotes h t := Iff.rfl

theorem denotes_key (k : Key) : Denotes ((t, .key k) :: h) (step C S t (.key k)) := by
  intro peer hpeer _
  rw [step] at *
  by_cases hlen : (t.onKey k).items.length ≤ (t.onKey k).selected
  · exact Or.inr hlen
  · left
    have hmin : min (t.onKey k).selected ((t.onKey k).items.length - 1) = (t.onKey k).selected := by
      omega
    rw [cursor, under, hmin] at hpeer
    exact hpeer

theorem denotes_frame : Denotes ((t, .frame) :: h) (step C S t .frame) ↔
    Steady (StandsAt S) h (t, .frame) := by
  have hlength : (t.buildSnapshot S).items.length =
      (accepted t.engine).length + t.engine.pendingRequests.length := by
    rw [buildSnapshot, List.length_append, newest_length, List.length_map]
  have hselected : (t.buildSnapshot S).selected = min t.selected
      ((accepted t.engine).length + t.engine.pendingRequests.length - 1) := by
    rw [← hlength]
    rfl
  refine forall_congr' fun peer => forall_congr' fun hpeer => ?_
  rw [step, listed_snapshot]
  refine forall_congr' fun hpresent => ?_
  have hitems : (t.buildSnapshot S).items ≠ [] := by
    obtain ⟨it, hit, -⟩ := (listed_snapshot (S := S) t peer).mpr hpresent
    exact List.ne_nil_of_mem hit
  have hlt : ¬ (t.buildSnapshot S).items.length ≤ (t.buildSnapshot S).selected := by
    have hpos := List.length_pos_iff.mpr hitems
    rw [hselected, ← hlength]
    omega
  rw [or_iff_left hlt, selectedItem, stands_snapshot, hselected]

/-- The commands about an item that a key press can give, with the line that has been typed. -/
def commands (it : Item) (line : Bytes) : List Bytes :=
  if it.isRequest then [acceptWord ++ space :: toHex it.pk, rejectWord ++ space :: toHex it.pk]
  else [sendWord ++ space :: toHex it.pk ++ space :: line]

def Submits (t t' : Tui) : Prop :=
  t'.queue = t.queue ∨ ∃ cmd, t'.queue = t.queue ++ [cmd] ∧
    (cmd = t.input ∧ t.input.head? = some slash ∨ ∃ it ∈ t.selectedItem, cmd ∈ commands it t.input)

theorem submits_enter (t : Tui) : Submits t t.handleEnter := by
  unfold handleEnter
  dsimp only
  split
  · exact Or.inl rfl
  · next c line hline =>
    split
    · split
      · next it hit =>
        split
        · exact Or.inl rfl
        · next hchat =>
          refine Or.inr ⟨_, rfl, Or.inr ⟨it, hit, ?_⟩⟩
          rw [commands, if_neg hchat, hline]
          exact List.mem_singleton_self _
      · exact Or.inl rfl
    · next hslash =>
      split
      · next hcmd =>
        split
        · next it hit =>
          split
          · next hrequest =>
            refine Or.inr ⟨_, rfl, Or.inr ⟨it, hit, ?_⟩⟩
            rw [commands, if_pos hrequest]
            obtain hcmd | hcmd := hcmd <;> simp [hcmd]
          · exact Or.inl rfl
        · exact Or.inl rfl
      · refine Or.inr ⟨_, rfl, Or.inl ⟨rfl, ?_⟩⟩
        rw [hline, List.head?_cons, not_not.mp hslash]

theorem submits_onKey (t : Tui) (k : Key) : Submits t (t.onKey k) := by
  have htype : ∀ ch, Submits t (t.type ch) := by
    intro ch
    unfold Tui.type
    split <;> exact Or.inl rfl
  cases k with
  | enter => exact submits_enter t
  | code ch =>
    rw [onKey]
    split
    · exact Or.inl rfl
    split
    · exact submits_enter t
    split
    · split
      · next it hit =>
        split
        · next hrequest =>
          refine Or.inr ⟨_, rfl, Or.inr ⟨it, hit, ?_⟩⟩
          rw [commands, if_pos hrequest]
          split <;> simp
        · exact htype ch
      · exact htype ch
    · exact htype ch
  | _ => exact Or.inl rfl

theorem denotes_iff (run : Run (step C S) (fun _ _ _ => True) t₀ h t) :
    Run.Throughout Denotes h t ↔ Run.Each (Steady (StandsAt S)) h := by
  refine run.throughout_iff nofun fun h t m _ denotes _ => ?_
  cases m with
  | net env call => exact iff_of_true ((denotes_net env call).mpr denotes) trivial
  | frame => exact denotes_frame
  | key k => exact iff_of_true (denotes_key k) trivial

theorem Steady.imp {placed placed' : Engine → Nat → Bytes → Prop} {m : Tui × Move}
    (himp : ∀ e place peer, placed e place peer → placed' e place peer) (hm : Steady placed h m) :
    Steady placed' h m := by
  obtain ⟨t, net | _ | k⟩ := m
  · trivial
  · exact fun peer hpeer hpresent => himp _ _ _ (hm peer hpeer hpresent)
  · trivial

/-- What is selected is the peer under the cursor if the peer has as many entries above it
whenever the list is built, and only then, but for chats that are as new as each other; and a key
press acts on what is selected. -/
theorem selection_kept (run : Run (step C S) (fun _ _ _ => True) t₀ h t) :
    (Run.Each (Steady PlacedAt) h → Run.Throughout Denotes h t) ∧
    (Run.Throughout Denotes h t → Run.Each (Steady MayBeAt) h) ∧ ∀ k, Submits t (t.onKey k) := by
  rw [denotes_iff run]
  refine ⟨fun hplaced => ?_, fun hstands => ?_, submits_onKey t⟩
  · exact hplaced.mono fun _ _ hm => hm.imp fun _ _ _ => standsAt_of_placedAt
  · exact hstands.mono fun _ _ hm => hm.imp fun _ _ _ => mayBeAt_of_standsAt

def stable : Sorting where
  sort := List.insertionSort fun a b => ¬ a.sortKey < b.sortKey
  perm := List.perm_insertionSort _
  ordered items := by
    have : Std.Total fun a b : Item => ¬ a.sortKey < b.sortKey := ⟨fun a b => by
      simp only [Int64.not_lt]
      exact Int64.le_total _ _⟩
    have : IsTrans Item fun a b => ¬ a.sortKey < b.sortKey := ⟨fun a b c hab hbc => by
      simp only [Int64.not_lt] at *
      exact Int64.le_trans hbc hab⟩
    exact List.pairwise_insertionSort _ items

def befriended : Engine :=
  ((((newEngines .A).addPeer reference (identity 3).publicKey address).1).addPeer reference
    (twoParties.key .B) address).1

instance (e : Engine) (peer : Bytes) : Decidable (Present e peer) := by
  unfold Present
  infer_instance

instance (e : Engine) (place : Nat) (peer : Bytes) : Decidable (PlacedAt e place peer) := by
  unfold PlacedAt Awaits
  infer_instance

instance (h : History Tui Move) (m : Tui × Move) : Decidable (Steady PlacedAt h m) := by
  unfold Steady
  split <;> infer_instance

/-- The second of two peers writes, the user goes to it, and it writes again. -/
def heard : History Tui Move × Tui :=
  Run.replay (step reference stable) [] { engine := befriended }
    [.frame, .net { clock with nowSeconds := 5 } (.poll (some (box .B 0 .message [7]))), .frame,
      .key .up, .net { clock with nowSeconds := 6 } (.poll (some (box .B 1 .message [8]))), .frame]

theorem selection_kept_heard :
    cursor heard.1 heard.2 = some (twoParties.key .B) ∧ Run.Throughout Denotes heard.1 heard.2 :=
  ⟨by decide +kernel,
    (selection_kept (Run.replay_run .start (Run.lawful_of_forall (fun _ _ _ => trivial) _ _ _))).1
      (by decide +kernel)⟩

/-- A message of the second of two peers comes in while the user writes to the first. -/
def overtaken : History Tui Move × Tui :=
  Run.replay (step reference stable) [] { engine := befriended }
    [.frame, .key .up, .net { clock with nowSeconds := 5 } (.poll (some (box .B 0 .message [7]))),
      .frame]

theorem other_peer_selected :
    Run (step reference stable) (fun _ _ _ => True) { engine := befriended } overtaken.1 overtaken.2 ∧
    ¬ Denotes overtaken.1 overtaken.2 ∧
    cursor overtaken.1 overtaken.2 = some (identity 3).publicKey ∧
    ((overtaken.2.onKey (.code 104)).onKey .enter).queue =
      [sendWord ++ space :: toHex (twoParties.key .B) ++ space :: [104]] := by
  have hcursor : cursor overtaken.1 overtaken.2 = some (identity 3).publicKey ∧
      (overtaken.2.items.any fun it => it.pk = (identity 3).publicKey) = true ∧
      overtaken.2.selectedItem.map (·.pk) = some (twoParties.key .B) ∧
      overtaken.2.selected < overtaken.2.items.length := by decide +kernel
  refine ⟨Run.replay_run .start (Run.lawful_of_forall (fun _ _ _ => trivial) _ _ _), fun h => ?_,
    hcursor.1, by decide +kernel⟩
  obtain ⟨it, hit, hpk⟩ := List.any_eq_true.mp hcursor.2.1
  obtain hsame | hbelow := h _ hcursor.1 ⟨it, hit, of_decide_eq_true hpk⟩
  · rw [hcursor.2.2.1] at hsame
    exact absurd (Option.some.inj hsame) (by decide)
  · exact Nat.not_le.mpr hcursor.2.2.2 hbelow

end OpenMesh.Cli.Selection
