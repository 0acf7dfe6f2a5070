import OpenMesh.Cli.HexKeys
import OpenMesh.Cli.Loops
import OpenMesh.Cli.Selection
import OpenMesh.Messaging.Records

namespace OpenMesh.Cli.Typing

open OpenMesh.Core.Buffers OpenMesh.Core.Hex OpenMesh.Crypto.Primitives
open OpenMesh.Crypto.Reference OpenMesh.Library.Runs OpenMesh.Net.Transport
open OpenMesh.Storage.Database OpenMesh.Messaging.Operations OpenMesh.Messaging.Pairs
open OpenMesh.Messaging.Records
open OpenMesh.Cli.Names OpenMesh.Cli.Names.ChatApp OpenMesh.Cli.HexKeys OpenMesh.Cli.Loops
open OpenMesh.Cli.Selection (Tui Key Sorting Item sendWord space)

def newline : UInt8 := 0x0A
/-- `"/quit"`. -/
def quitWord : Bytes := [slash, 0x71, 0x75, 0x69, 0x74]
/-- `"/id"`. -/
def idWord : Bytes := [slash, 0x69, 0x64]

def readText (rest : Bytes) : Bytes :=
  match rest.takeWhile (· ≠ newline) with
  | [] => []
  | c :: text => if c = space then text else c :: text

/-- What `Tui::exec` makes of a line. -/
def parse (line : Bytes) : Command :=
  let (cmd, rest) := token line
  if cmd = quitWord then .quit
  else if cmd = idWord then .other
  else if cmd = addWord then
    match addArguments rest with
    | some (name, pk) => .add name pk
    | none => .other
  else if cmd = acceptWord ∨ cmd = rejectWord then
    match fromHex (token rest).1 with
    | some pk => .decide pk (cmd = acceptWord)
    | none => .other
  else if cmd = sendWord then
    let (pkhex, rest) := token rest
    match fromHex pkhex with
    | some pk => .send pk (readText rest)
    | none => .other
  else .other

/-- The network thread, and the one that draws and takes keys. Of the engine that the latter
has, the list that it has last built is all that it looks at. -/
structure Program where
  om : Om
  ui : Tui

inductive Move where
  | net (i : Input)
  | frame
  | key (k : Key)

namespace Program

variable (C : Sodium) (S : Sorting)

/-- The network thread takes the whole queue at a time. Each lock is held within one move; that
the list is not built in the course of a batch does not matter here. -/
def step (p : Program) : Move → Program
  | .net i =>
    { om := p.om.step C { i with lines := p.ui.queue.map parse }
      ui := match p.om.task with
        | .gathering => { p.ui with queue := [] }
        | _ => p.ui }
  | .frame => { p with ui := { p.ui with engine := p.om.engine }.buildSnapshot S }
  | .key k => { p with ui := p.ui.onKey k }

end Program

open Program

def waiting : Task → List Command
  | .commands lines | .registering lines | .discovering _ lines => lines
  | _ => []

def next : Task → List Command
  | .commands (line :: _) => [line]
  | _ => []

def executed : History Program Move → List Command
  | [] => []
  | (p, .net _) :: h => executed h ++ next p.om.task
  | (_, .frame) :: h | (_, .key _) :: h => executed h

/-- What the enter key asks for: a message for the chat that is selected, a decision on the
request that is selected, or what has been typed after a slash. -/
def entered (t : Tui) : List Command :=
  match t.input with
  | [] => []
  | c :: _ =>
    let word := (token t.input).1
    if c ≠ slash then
      (t.selectedItem.toList.filter (!·.isRequest)).map fun it => .send it.pk t.input
    else if word = acceptWord ∨ word = rejectWord then
      (t.selectedItem.toList.filter (·.isRequest)).map fun it => .decide it.pk (word = acceptWord)
    else [parse t.input]

/-- What a key press asks for. On an empty line two letters decide on a request. -/
def asked (t : Tui) : Key → List Command
  | .enter => entered t
  | .code ch =>
    if ch = 10 then entered t
    else if t.input = [] ∧ (ch = 97 ∨ ch = 114) then
      (t.selectedItem.toList.filter (·.isRequest)).map fun it => .decide it.pk (ch = 97)
    else []
  | _ => []

def typed : History Program Move → List Command
  | [] => []
  | (p, .key k) :: h => typed h ++ asked p.ui k
  | (_, .net _) :: h | (_, .frame) :: h => typed h

variable {C : Sodium} {S : Sorting} {p p₀ : Program} {h : History Program Move}

section Lines

theorem isSpace_space : isSpace space = true := by decide

theorem token_append {word : Bytes} (rest : Bytes) (hne : word ≠ [])
    (hword : ∀ b ∈ word, isSpace b = false) :
    token (word ++ space :: rest) = (word, space :: rest) := by
  obtain ⟨b, bs, rfl⟩ := List.exists_cons_of_ne_nil hne
  have hfirst : isSpace b = false := hword b List.mem_cons_self
  have hdrop : (b :: bs ++ space :: rest).dropWhile isSpace = b :: bs ++ space :: rest := by
    rw [List.cons_append, List.dropWhile_cons_of_neg (by rw [hfirst]; exact Bool.false_ne_true)]
  have hall : ∀ c ∈ b :: bs, (!isSpace c) = true := by
    intro c hc
    rw [hword c hc]
    rfl
  rw [token, hdrop, List.takeWhile_append_of_pos hall, List.dropWhile_append_of_pos hall,
    List.takeWhile_cons_of_neg (by rw [isSpace_space]; exact Bool.false_ne_true),
    List.dropWhile_cons_of_neg (by rw [isSpace_space]; exact Bool.false_ne_true), List.append_nil]

theorem token_end {word : Bytes} (hne : word ≠ []) (hword : ∀ b ∈ word, isSpace b = false) :
    token word = (word, []) := by
  obtain ⟨b, bs, rfl⟩ := List.exists_cons_of_ne_nil hne
  have hfirst : isSpace b = false := hword b List.mem_cons_self
  have hdrop : (b :: bs).dropWhile isSpace = b :: bs :=
    List.dropWhile_cons_of_neg (by rw [hfirst]; exact Bool.false_ne_true)
  have hall : ∀ c ∈ b :: bs, (!isSpace c) = true := by
    intro c hc
    rw [hword c hc]
    rfl
  rw [token, hdrop, List.takeWhile_eq_self_iff.mpr hall, List.dropWhile_eq_nil_iff.mpr hall]

theorem token_blank (rest : Bytes) : token (space :: rest) = token rest := by
  rw [token, List.dropWhile_cons_of_pos isSpace_space]
  rfl

theorem digit_blank (n : Nat) : isSpace (kHex.getD n 0) = false := by
  have hall : ∀ c ∈ kHex, isSpace c = false := by decide +kernel
  rw [List.getD_eq_getElem?_getD]
  cases hc : kHex[n]? with
  | none => rfl
  | some c => exact hall c (List.mem_of_getElem? hc)

theorem toHex_blank (bytes : Bytes) : ∀ b ∈ toHex bytes, isSpace b = false := by
  induction bytes with
  | nil => exact fun b hb => absurd hb List.not_mem_nil
  | cons byte bytes ih =>
    intro b hb
    simp only [toHex, List.mem_cons] at hb
    obtain rfl | rfl | hb := hb
    · exact digit_blank _
    · exact digit_blank _
    · exact ih b hb

theorem toHex_ne_nil {bytes : Bytes} (h : bytes ≠ []) : toHex bytes ≠ [] := by
  intro he
  exact h (toHex_injective he)

theorem readText_space {text : Bytes} (htext : ∀ b ∈ text, b ≠ newline) :
    readText (space :: text) = text := by
  have hall : ∀ b ∈ space :: text, decide (b ≠ newline) = true := by
    intro b hb
    obtain rfl | hb := List.mem_cons.mp hb
    · decide
    · exact decide_eq_true (htext b hb)
  rw [readText, List.takeWhile_eq_self_iff.mpr hall]
  rfl

theorem parse_send {pk : Bytes} (hpk : pk ≠ []) {text : Bytes} (htext : ∀ b ∈ text, b ≠ newline) :
    parse (sendWord ++ space :: toHex pk ++ space :: text) = .send pk text := by
  have hline : token (sendWord ++ space :: toHex pk ++ space :: text) =
      (sendWord, space :: (toHex pk ++ space :: text)) := by
    rw [List.append_assoc, List.cons_append]
    exact token_append _ (by decide) (by decide +kernel)
  have hquit : sendWord ≠ quitWord := by decide
  have hid : sendWord ≠ idWord := by decide
  have hadd : sendWord ≠ addWord := by decide
  have hdecide : ¬ (sendWord = acceptWord ∨ sendWord = rejectWord) := by decide
  rw [parse, hline]
  dsimp only
  rw [if_neg hquit, if_neg hid, if_neg hadd, if_neg hdecide, if_pos rfl, token_blank,
    token_append text (toHex_ne_nil hpk) (toHex_blank pk)]
  dsimp only
  rw [fromHex_toHex, readText_space htext]

theorem parse_decide {pk : Bytes} (hpk : pk ≠ []) {word : Bytes}
    (hword : word = acceptWord ∨ word = rejectWord) :
    parse (word ++ space :: toHex pk) = .decide pk (word = acceptWord) := by
  have hall : ∀ word ∈ [acceptWord, rejectWord], (word ≠ [] ∧ ∀ b ∈ word, isSpace b = false) ∧
      word ≠ quitWord ∧ word ≠ idWord ∧ word ≠ addWord := by
    decide +kernel
  obtain ⟨⟨hne, hblank⟩, hquit, hid, hadd⟩ := hall word (by simpa using hword)
  rw [parse, token_append _ hne hblank]
  dsimp only
  rw [if_neg hquit, if_neg hid, if_neg hadd, if_pos hword, token_blank,
    token_end (toHex_ne_nil hpk) (toHex_blank pk)]
  dsimp only
  rw [fromHex_toHex]

theorem parse_add {pk name : Bytes} (hpk : pk.length = kPublicKeyBytes) (hne : name ≠ [])
    (hname : ∀ b ∈ name, isSpace b = false) :
    parse (addWord ++ space :: name ++ space :: toHex pk) = .add name pk := by
  have hkey : pk ≠ [] := by
    rintro rfl
    cases hpk
  have hline : token (addWord ++ space :: name ++ space :: toHex pk) =
      (addWord, space :: (name ++ space :: toHex pk)) := by
    rw [List.append_assoc, List.cons_append]
    exact token_append _ (by decide) (by decide +kernel)
  have hquit : addWord ≠ quitWord := by decide
  have hid : addWord ≠ idWord := by decide
  have harguments : addArguments (space :: (name ++ space :: toHex pk)) = some (name, pk) := by
    rw [addArguments, token_blank, token_append _ hne hname]
    dsimp only
    rw [token_blank, token_end (toHex_ne_nil hkey) (toHex_blank pk)]
    dsimp only
    rw [fromHex_toHex]
    exact if_neg (by simp [hne, hpk, kPublicKeyBytes])
  rw [parse, hline]
  dsimp only
  rw [if_neg hquit, if_neg hid, if_pos rfl, harguments]

theorem parse_named {line name pk : Bytes} (h : parse line = .add name pk) :
    pk.length = kPublicKeyBytes := by
  unfold parse at h
  dsimp only at h
  split at h
  · cases h
  split at h
  · cases h
  split at h
  · split at h
    · next hadd =>
      cases h
      unfold addArguments at hadd
      dsimp only at hadd
      split at hadd
      · split at hadd
        · cases hadd
        · next hvalid =>
          cases hadd
          exact not_not.mp (not_or.mp hvalid).2
      · cases hadd
    · cases h
  split at h
  · split at h <;> cases h
  split at h
  · split at h <;> cases h
  · cases h

end Lines

section Keys

variable {t : Tui}

structure Typable (t : Tui) : Prop where
  input : ∀ b ∈ t.input, b ≠ newline
  items : ∀ it ∈ t.items, it.pk ≠ []

theorem Typable.selected (typable : Typable t) {it : Item} (hit : t.selectedItem = some it) :
    it.pk ≠ [] := typable.items it (List.mem_of_getElem? hit)

theorem enter_queue (typable : Typable t) :
    t.handleEnter.queue.map parse = t.queue.map parse ++ entered t := by
  have hsame : Tui.selectedItem { t with input := [] } = t.selectedItem := rfl
  cases hline : t.input with
  | nil => simp [Tui.handleEnter, entered, hline]
  | cons c line =>
    simp only [Tui.handleEnter, entered, hline, hsame]
    split
    · cases hit : t.selectedItem with
      | none => simp
      | some it =>
        have hparse := parse_send (typable.selected hit) typable.input
        rw [hline, List.append_assoc, List.cons_append] at hparse
        cases hrequest : it.isRequest with
        | true => simp [hrequest]
        | false => simp [hrequest, Tui.submit, hparse]
    · split
      · next hword =>
        cases hit : t.selectedItem with
        | none => simp
        | some it =>
          have hparse := parse_decide (typable.selected hit) hword
          cases hrequest : it.isRequest with
          | true => simp [hrequest, Tui.submit, hparse]
          | false => simp [hrequest]
      · simp [Tui.submit]

theorem type_queue (t : Tui) (ch : Nat) :
    (t.type ch).queue = t.queue ∧ (t.type ch).items = t.items := by
  unfold Tui.type
  split <;> exact ⟨rfl, rfl⟩

theorem type_input (typable : Typable t) (ch : Nat) (hch : ch ≠ 10) :
    ∀ b ∈ (t.type ch).input, b ≠ newline := by
  unfold Tui.type
  split
  · next hrange =>
    intro b hb
    obtain hb | hb := List.mem_append.mp hb
    · exact typable.input b hb
    · rw [List.mem_singleton.mp hb]
      intro he
      have hnat := congrArg UInt8.toNat he
      rw [UInt8.toNat_ofNat', Nat.mod_eq_of_lt hrange.2] at hnat
      exact hch hnat
  · exact typable.input

theorem key_queue (typable : Typable t) (k : Key) :
    (t.onKey k).queue.map parse = t.queue.map parse ++ asked t k := by
  cases k with
  | enter => exact enter_queue typable
  | code ch =>
    rw [Tui.onKey, asked]
    by_cases herase : ch = 127 ∨ ch = 8
    · have hline : ch ≠ 10 := by omega
      have hletter : ¬ (t.input = [] ∧ (ch = 97 ∨ ch = 114)) := by omega
      rw [if_pos herase, if_neg hline, if_neg hletter, List.append_nil]
      rfl
    rw [if_neg herase]
    by_cases hline : ch = 10
    · rw [if_pos hline, if_pos hline]
      exact enter_queue typable
    rw [if_neg hline, if_neg hline]
    by_cases hletter : t.input = [] ∧ (ch = 97 ∨ ch = 114)
    · rw [if_pos hletter, if_pos hletter]
      cases hit : t.selectedItem with
      | none => simp [type_queue]
      | some it =>
        cases hrequest : it.isRequest with
        | false => simp [hrequest, type_queue]
        | true =>
          have hor : (if ch = 97 then acceptWord else rejectWord) = acceptWord ∨
              (if ch = 97 then acceptWord else rejectWord) = rejectWord := by
            split
            · exact Or.inl rfl
            · exact Or.inr rfl
          have hwhich : ((if ch = 97 then acceptWord else rejectWord) = acceptWord) ↔ ch = 97 := by
            split
            · next h => exact iff_of_true rfl h
            · next h => exact iff_of_false (by decide) h
          have hparse := parse_decide (typable.selected hit) hor
          simp only [hwhich] at hparse
          simp [hrequest, Tui.submit, hparse]
    · rw [if_neg hletter, if_neg hletter, (type_queue t ch).1, List.append_nil]
  | _ => exact (List.append_nil _).symm

theorem enter_kept (t : Tui) : t.handleEnter.items = t.items ∧ t.handleEnter.input = [] := by
  unfold Tui.handleEnter
  dsimp only
  split
  · exact ⟨rfl, rfl⟩
  split
  · split
    · split <;> exact ⟨rfl, rfl⟩
    · exact ⟨rfl, rfl⟩
  split
  · split
    · split <;> exact ⟨rfl, rfl⟩
    · exact ⟨rfl, rfl⟩
  · exact ⟨rfl, rfl⟩

theorem enter_typable (typable : Typable t) : Typable t.handleEnter := by
  obtain ⟨hitems, hinput⟩ := enter_kept t
  constructor
  · intro b hb
    rw [hinput] at hb
    cases hb
  · rw [hitems]
    exact typable.items

theorem erase_typable (typable : Typable t) : Typable t.erase :=
  ⟨fun b hb => typable.input b (List.mem_of_mem_dropLast hb), typable.items⟩

theorem type_typable (typable : Typable t) {ch : Nat} (hch : ch ≠ 10) : Typable (t.type ch) := by
  refine ⟨type_input typable ch hch, ?_⟩
  rw [(type_queue t ch).2]
  exact typable.items

theorem key_typable (typable : Typable t) (k : Key) : Typable (t.onKey k) := by
  cases k with
  | backspace => exact erase_typable typable
  | enter => exact enter_typable typable
  | code ch =>
    rw [Tui.onKey]
    split
    · exact erase_typable typable
    split
    · exact enter_typable typable
    · next hline =>
      split
      · split
        · split
          · exact ⟨typable.input, typable.items⟩
          · exact type_typable typable hline
        · exact type_typable typable hline
      · exact type_typable typable hline
  | _ => exact ⟨typable.input, typable.items⟩

end Keys

section Net

variable {o : Om} {i : Input}

def Named (lines : List Command) : Prop :=
  ∀ name pk, Command.add name pk ∈ lines → pk.length = kPublicKeyBytes

theorem named_parse (queue : List Bytes) : Named (queue.map parse) := by
  intro name pk hmem
  obtain ⟨line, -, hline⟩ := List.mem_map.mp hmem
  exact parse_named hline

theorem exec_waiting (o : Om) (env : Env) (lines : List Command) (line : Command) :
    waiting (o.exec C env lines line).task = lines := by
  cases line with
  | register =>
    rw [Om.exec]
    split <;> rfl
  | add name pk =>
    rw [Om.exec]
    dsimp only
    split
    · rfl
    · split <;> rfl
  | _ => rfl

theorem step_waiting (o : Om) (i : Input) :
    waiting o.task ++ (match o.task with | .gathering => i.lines | _ => []) =
      next o.task ++ waiting (o.step C i).task := by
  unfold Om.step
  cases htask : o.task with
  | commands lines =>
    cases lines with
    | nil =>
      dsimp only
      split <;> rfl
    | cons line lines =>
      dsimp only
      rw [exec_waiting]
      simp [waiting, next]
  | registering lines =>
    dsimp only
    split
    · rw [wait_task, htask]
      simp [next, waiting]
    · simp [next, waiting]
  | discovering pk lines =>
    dsimp only
    split
    · rw [wait_task, htask]
      simp [next, waiting]
    · simp [next, waiting]
  | polling =>
    dsimp only
    split <;> rfl
  | timing =>
    dsimp only
    split <;> rfl
  | beating now =>
    dsimp only
    split
    · rw [wait_task, htask]
      rfl
    · rfl
  | announcing now =>
    dsimp only
    split
    · split
      · split <;> rfl
      · split <;> rfl
    · split <;> rfl
  | stopped => simp [waiting, next, htask]
  | _ => simp [waiting, next]

theorem socket_keyed {e : Engine} (keyed : WellKeyed e) (socket : UdpSocket) :
    WellKeyed { e with socket } := ⟨keyed.sessions, keyed.records⟩

theorem call_keyed {e : Engine} (keyed : WellKeyed e) (env : Env) (c : Engine.Call)
    (hopen : c.reopens = false) (hnames : ∀ pk ∈ c.names, pk.length = kPublicKeyBytes) :
    WellKeyed (e.call C env c).1 := step_wellKeyed (m := (env, c)) keyed ⟨hopen, hnames⟩

theorem plain_keyed {e : Engine} (keyed : WellKeyed e) (env : Env) (c : Engine.Call)
    (hopen : c.reopens = false) (hnames : c.names = none) : WellKeyed (e.call C env c).1 := by
  apply call_keyed keyed env c hopen
  intro pk hpk
  rw [hnames] at hpk
  cases hpk

theorem signal_keyed (keyed : WellKeyed o.engine) (event : Net.Client.Event) :
    WellKeyed (o.signal event).engine := by
  rw [signal_engine]
  exact socket_keyed keyed _

theorem exec_keyed (keyed : WellKeyed o.engine) (env : Env) (lines : List Command) {line : Command}
    (named : ∀ name pk, line = .add name pk → pk.length = kPublicKeyBytes) :
    WellKeyed (o.exec C env lines line).engine := by
  cases line with
  | register =>
    rw [Om.exec]
    split
    · exact signal_keyed keyed _
    · exact keyed
  | add name pk =>
    have hnamed : WellKeyed (if o.app = .tui then o.engine.setNickname pk name else o.engine) := by
      split
      · apply call_keyed (C := C) keyed env (.setNickname pk name) rfl
        intro q hq
        rw [← Option.some.inj hq]
        exact named name pk rfl
      · exact keyed
    rw [Om.exec]
    dsimp only
    split
    · exact signal_keyed hnamed _
    · split
      · exact plain_keyed hnamed env (.sendContactRequest pk _ o.name) rfl rfl
      · exact hnamed
  | decide pk accept =>
    cases accept with
    | true => exact plain_keyed keyed env (.acceptContact pk) rfl rfl
    | false => exact plain_keyed keyed env (.rejectContact pk) rfl rfl
  | send pk text => exact plain_keyed keyed env (.send pk text) rfl rfl
  | _ => exact keyed

theorem introduce_keyed (keyed : WellKeyed o.engine) (i : Input) (pk : Bytes) :
    WellKeyed (o.introduce C i pk).engine := by
  unfold Om.introduce
  split
  · exact keyed
  · split
    · next found _ =>
      have hconnect : WellKeyed (o.engine.connect i.env pk found).1 :=
        plain_keyed (C := C) keyed i.env (.connect pk found) rfl rfl
      dsimp only
      split
      · have hsignal := signal_keyed (o := { o with engine := (o.engine.connect i.env pk found).1 })
          hconnect
        exact plain_keyed (hsignal _) i.env (.sendContactRequest pk _ _) rfl rfl
      · exact plain_keyed hconnect i.env (.sendContactRequest pk _ _) rfl rfl
    · exact keyed

theorem wait_keyed (keyed : WellKeyed o.engine) (i : Input) : WellKeyed (o.wait i).engine := by
  rw [wait_engine]
  exact socket_keyed keyed _

theorem step_keyed (keyed : WellKeyed o.engine) (named : Named (waiting o.task)) (i : Input) :
    WellKeyed (o.step C i).engine := by
  unfold Om.step
  cases htask : o.task with
  | commands lines =>
    cases lines with
    | nil => exact keyed
    | cons line lines =>
      apply exec_keyed keyed i.env lines
      rintro name pk rfl
      apply named name pk
      rw [htask]
      exact List.mem_cons_self
  | registering lines =>
    dsimp only
    split
    · exact wait_keyed keyed i
    · exact keyed
  | discovering pk lines =>
    dsimp only
    split
    · exact wait_keyed keyed i
    · exact introduce_keyed keyed i pk
  | polling => exact plain_keyed keyed i.env (.poll i.incoming) rfl rfl
  | ticking => exact plain_keyed (C := C) keyed i.env .tick rfl rfl
  | timing =>
    dsimp only
    split
    · exact signal_keyed keyed _
    · exact keyed
  | beating now =>
    dsimp only
    split
    · exact wait_keyed keyed i
    · exact keyed
  | announcing now =>
    dsimp only
    split
    · next relay _ =>
      split
      · exact plain_keyed (C := C) keyed i.env (.announceTo relay) rfl rfl
      · exact keyed
    · exact keyed
  | _ => exact keyed

end Net

/-- The program as it starts: nothing typed yet, and an engine whose records are in order. -/
structure Fresh (p : Program) : Prop where
  task : p.om.task = .gathering
  engine : WellKeyed p.om.engine
  queue : p.ui.queue = []
  items : p.ui.items = []
  input : p.ui.input = []

structure Sane (p : Program) : Prop where
  engine : WellKeyed p.om.engine
  named : Named (waiting p.om.task)
  typable : Typable p.ui

theorem frame_typable {t : Tui} (typable : Typable t) {e : Engine} (keyed : WellKeyed e) :
    Typable ({ t with engine := e }.buildSnapshot S) := by
  refine ⟨typable.input, ?_⟩
  intro it hit
  have hlisted := (Selection.listed_snapshot (S := S) { t with engine := e } it.pk).mp ⟨it, hit, rfl⟩
  have hlength : it.pk.length = kPublicKeyBytes := by
    apply keyed.records
    obtain ⟨c, hc, hpk⟩ | ⟨q, hq, hpk⟩ := hlisted
    · have hmem : c ∈ e.contacts.contacts := List.mem_of_mem_filter hc
      rw [← hpk]
      exact List.mem_append_left _ (List.mem_map_of_mem hmem)
    · rw [← hpk]
      exact List.mem_append_right _ (List.mem_append_right _ (List.mem_map_of_mem hq))
  intro he
  rw [he] at hlength
  cases hlength

theorem step_sane (sane : Sane p) (m : Move) : Sane (p.step C S m) := by
  cases m with
  | key k => exact ⟨sane.engine, sane.named, key_typable sane.typable k⟩
  | frame => exact ⟨sane.engine, sane.named, frame_typable sane.typable sane.engine⟩
  | net i =>
    have hwaiting := step_waiting (C := C) p.om { i with lines := p.ui.queue.map parse }
    refine ⟨step_keyed sane.engine sane.named _, ?_, ?_⟩
    · intro name pk hmem
      have hmem' := List.mem_append_right (next p.om.task) hmem
      rw [Program.step, ← hwaiting] at hmem'
      obtain hmem' | hmem' := List.mem_append.mp hmem'
      · exact sane.named name pk hmem'
      · split at hmem'
        · exact named_parse _ name pk hmem'
        · cases hmem'
    · rw [Program.step]
      dsimp only
      split
      · exact ⟨sane.typable.input, sane.typable.items⟩
      · exact sane.typable

/-- A net move takes nothing from what is yet to be done but the line that it handles. -/
theorem net_conserves (p : Program) (i : Input) :
    waiting p.om.task ++ p.ui.queue.map parse =
      next p.om.task ++ (waiting (p.step C S (.net i)).om.task ++
        (p.step C S (.net i)).ui.queue.map parse) := by
  have hwaiting := step_waiting (C := C) p.om { i with lines := p.ui.queue.map parse }
  rw [Program.step, ← List.append_assoc]
  dsimp only
  rw [← hwaiting]
  cases p.om.task <;> simp [waiting]

/-- Each thing that the keys have asked for is done once, in the order in which it was asked for,
with the peer that was selected and the text that was typed then; and a line that adds a peer is
read as one. -/
theorem typed_executed (run : Run (step C S) (fun _ _ _ => True) p₀ h p) (start : Fresh p₀) :
    typed h = executed h ++ (waiting p.om.task ++ p.ui.queue.map parse) ∧
    ∀ name pk, name ≠ [] → (∀ b ∈ name, isSpace b = false) → pk.length = kPublicKeyBytes →
      parse (addWord ++ space :: name ++ space :: toHex pk) = .add name pk := by
  have hboth : Sane p ∧ typed h = executed h ++ (waiting p.om.task ++ p.ui.queue.map parse) := by
    induction run with
    | start =>
      refine ⟨⟨start.engine, ?_, ?_, ?_⟩, ?_⟩
      · rw [start.task]
        exact fun _ _ hmem => absurd hmem List.not_mem_nil
      · rw [start.input]
        exact fun _ hb => absurd hb List.not_mem_nil
      · rw [start.items]
        exact fun _ hit => absurd hit List.not_mem_nil
      · rw [start.task, start.queue]
        rfl
    | @move h p m _ _ ih =>
      obtain ⟨sane, hconserved⟩ := ih
      refine ⟨step_sane sane m, ?_⟩
      cases m with
      | key k =>
        rw [typed, executed, hconserved, Program.step]
        dsimp only
        rw [key_queue sane.typable k, List.append_assoc, List.append_assoc]
      | frame => exact hconserved
      | net i =>
        rw [typed, executed, hconserved, net_conserves (C := C) (S := S) p i, List.append_assoc]
  exact ⟨hboth.2, fun name pk hne hname hpk => parse_add hpk hne hname⟩

def opened : Program where
  om := { app := .tui, engine := ((newEngines .A).addPeer reference (twoParties.key .B) address).1 }
  ui := { engine := newEngines .A }

theorem opened_fresh : Fresh opened := by
  have keyed : WellKeyed (((newEngines .A).addPeer reference (twoParties.key .B) address).1) :=
    plain_keyed (C := reference) (new_wellKeyed _ _) clock (.addPeer (twoParties.key .B) address)
      rfl rfl
  exact ⟨rfl, keyed, rfl, rfl, rfl⟩

def chatting : History Program Move × Program :=
  Run.replay (Program.step reference Selection.stable) [] opened
    [.frame, .key (.code 104), .key (.code 32), .key (.code 32), .key (.code 105), .key .enter,
      .net { env := clock }, .key (.code 47), .net { env := clock }, .key (.code 10)]

theorem typed_executed_chatting :
    typed chatting.1 = executed chatting.1 ++
      (waiting chatting.2.om.task ++ chatting.2.ui.queue.map parse) ∧
    (chatting.2.om.engine.contacts.conversation (twoParties.key .B)).map (·.text) =
      [[104, 32, 32, 105]] ∧ chatting.2.ui.queue = [[slash]] := by
  have hrun : Run (Program.step reference Selection.stable) (fun _ _ _ => True) opened
      chatting.1 chatting.2 :=
    Run.replay_run .start (Run.lawful_of_forall (fun _ _ _ => trivial) _ _ _)
  exact ⟨(typed_executed hrun opened_fresh).1, by decide +kernel, by decide +kernel⟩

end OpenMesh.Cli.Typing
