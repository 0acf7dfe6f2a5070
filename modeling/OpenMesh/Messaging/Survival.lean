import OpenMesh.Messaging.Lifetimes
import OpenMesh.Messaging.Records

namespace OpenMesh.Messaging.Survival

open OpenMesh.Core.Buffers OpenMesh.Crypto.Primitives OpenMesh.Crypto.Reference
open OpenMesh.Library.Runs OpenMesh.Storage OpenMesh.Storage.Database
open OpenMesh.Storage.DatabaseCodec OpenMesh.Storage.Lookup OpenMesh.Storage.Durability
open OpenMesh.Messaging.Operations OpenMesh.Messaging.Deeds OpenMesh.Messaging.Pairs
open OpenMesh.Messaging.Lifetimes (openStore_store)
open OpenMesh.Messaging.Records (noted journal appended edits_messages step_messages)

/-- An engine, and what every path of the disk holds. -/
structure Device where
  engine : Engine
  disk : Bytes → Option Bytes

/-- A call, and how each of its writes ends: there is a new file, made with the nonce, or the old
one stays. What comes after the last of these is not written any more. Then the process may stop,
and another one open the store. -/
structure Turn where
  env : Env
  call : Engine.Call
  fates : List (Option Nonce)
  restart : Option ({ bytes : Bytes // bytes.length = kKdfSaltBytes } × Nonce) := none

section Devices

variable (C : Sodium)

def writes (before after : Store) : List Write := after.writes.drop before.writes.length

def record (disk : Bytes → Option Bytes) (made : List (Write × Option Nonce)) :
    Bytes → Option Bytes :=
  made.foldl (fun disk w => match w.2 with
    | some nonce => put C nonce disk w.1
    | none => disk) disk

def called (d : Device) (t : Turn) : Engine := (d.engine.call C t.env t.call).1

/-- The writes of a call, each with its fate. -/
def made (d : Device) (t : Turn) : List (Write × Option Nonce) :=
  (writes d.engine.contacts (called C d t).contacts).zip t.fates

def Device.step (path passphrase : Bytes) (d : Device) (t : Turn) : Device :=
  let e := called C d t
  let disk := record C d.disk (made C d t)
  match t.restart with
  | none => ⟨e, disk⟩
  | some (salt, nonce) =>
    let io : OpenIO :=
      { pathExists := (disk path).isSome, content := disk path, salt, writeOk := true }
    ⟨((Engine.new e.localPublic e.localSecret).openStore C io path passphrase).1,
      (opened C salt nonce ⟨{}, disk⟩ path passphrase).1.disk⟩

def saved (made : List (Write × Option Nonce)) : Bool := made.any (·.2.isSome)

def Flawless (d : Device) (t : Turn) : Prop :=
  (writes d.engine.contacts (called C d t).contacts).length ≤ t.fates.length ∧
    ∀ fate ∈ t.fates, fate.isSome

/-- What the calls store fits the format, and there is never too much of it. -/
def Sized : Store → List Durability.Call → Prop
  | _, [] => True
  | s, c :: cs => Fitting s c ∧ Counted (c.run s) ∧ Sized (c.run s) cs

def Lawful (d : Device) (t : Turn) : Prop :=
  t.call.reopens = false ∧ Sized d.engine.contacts
    ((deed C t.env d.engine t.call).edits t.env d.engine.contacts)

end Devices

/-- A list that is kept in memory and in a file. -/
structure Diary where
  memory : List Message
  file : List Message

/-- Something is noted; then the file may be written anew, and the memory be read from it. -/
def Diary.step (d : Diary) (noted : List Message) (saved stopped : Bool) : Diary :=
  let memory := d.memory ++ noted
  let file := if saved then memory else d.file
  ⟨if stopped then file else memory, file⟩

section Diaries

variable (C : Sodium) (start : List Message)

def diary : History Device Turn → Diary
  | [] => ⟨start, start⟩
  | (d, t) :: h =>
    (diary h).step (noted C d.engine (t.env, t.call)) (saved (made C d t)) t.restart.isSome

def calls (h : History Device Turn) : History Engine Records.Call :=
  h.map fun m => (m.1.engine, (m.2.env, m.2.call))

variable {C start}

/-- The file lacks what was noted last. -/
theorem diary_file (h : History Device Turn) :
    (diary C start h).file <+: (diary C start h).memory := by
  induction h with
  | nil => exact List.prefix_rfl
  | cons m h ih =>
    obtain ⟨d, t⟩ := m
    rw [diary, Diary.step]
    dsimp only
    cases t.restart.isSome with
    | true => exact List.prefix_rfl
    | false =>
      cases saved (made C d t) with
      | true => exact List.prefix_rfl
      | false => exact ih.trans (List.prefix_append _ _)

/-- Nothing is in the memory but what was noted, in this order. -/
theorem diary_sublist (h : History Device Turn) :
    (diary C start h).memory.Sublist (start ++ journal C (calls h)) := by
  induction h with
  | nil => exact List.sublist_append_left _ _
  | cons m h ih =>
    obtain ⟨d, t⟩ := m
    have hmemory : ((diary C start h).memory ++ noted C d.engine (t.env, t.call)).Sublist
        (start ++ journal C (calls ((d, t) :: h))) := by
      rw [calls, List.map_cons, journal, ← List.append_assoc]
      exact ih.append (List.Sublist.refl _)
    rw [diary, Diary.step]
    dsimp only
    cases t.restart.isSome with
    | false => exact hmemory
    | true =>
      cases saved (made C d t) with
      | true => exact hmemory
      | false =>
        exact ((diary_file h).sublist.trans (List.sublist_append_left _ _)).trans hmemory

end Diaries

section Storing

variable {C : Sodium} {path passphrase : Bytes}

theorem storable_of_contents {file : Bytes} {x : List Contact × List Message × List Request}
    (h : contents C file passphrase = some x) : Storable x.1 x.2.1 x.2.2 := by
  unfold contents at h
  split at h
  · cases h
  · split at h
    · cases h
    · split at h
      · cases h
      · next plaintext _ =>
        cases hd : decode plaintext with
        | error e =>
          rw [hd] at h
          cases h
        | ok y =>
          rw [hd] at h
          rw [Option.some.inj h] at hd
          exact storable_of_decode hd

/-- A database that is open on its file, and what it was when the file was written. -/
structure Keeps (C : Sodium) (path passphrase : Bytes) (s : Store) (disk : Bytes → Option Bytes)
    (kept : Store) : Prop where
  opened : Durability.Open C path passphrase ⟨s, disk⟩
  fits : Durability.Fits s
  durable : Durable C path passphrase ⟨kept, disk⟩

variable {s kept : Store} {disk : Bytes → Option Bytes}

theorem Keeps.storable (keeps : Keeps C path passphrase s disk kept) :
    Storable kept.contacts kept.messages kept.requests := by
  obtain ⟨file, hfile⟩ := Option.isSome_iff_exists.mp keeps.opened.present
  exact storable_of_contents ((durable_iff_contents (m := ⟨kept, disk⟩) hfile).mp keeps.durable)

theorem durable_messages {s' : Store} (h : Durable C path passphrase ⟨s, disk⟩)
    (h' : Durable C path passphrase ⟨s', disk⟩) : s'.messages = s.messages := by
  obtain ⟨-, -, hmessages, -⟩ := h {} fixedSalt fixedNonce
  obtain ⟨-, -, hmessages', -⟩ := h' {} fixedSalt fixedNonce
  rw [← hmessages, ← hmessages']

theorem open_save {s' : Store} (hopen : Durability.Open C path passphrase ⟨s, disk⟩)
    (hpersistent : s'.persistent = s.persistent) (hpath : s'.path = s.path) (hkey : s'.key = s.key)
    (hsalt : s'.salt = s.salt) : Durability.Open C path passphrase ⟨s'.save, disk⟩ := by
  obtain ⟨hp, hpath', hkey', hsalt'⟩ := save_fixed s'
  refine ⟨?_, ?_, ?_, ?_, ?_, hopen.present⟩
  · exact (hp.trans hpersistent).trans hopen.persistent
  · exact (hpath'.trans hpath).trans hopen.path_eq
  · rw [hsalt', hsalt]
    exact hopen.salt_length
  · rw [hkey', hkey, hsalt', hsalt]
    exact hopen.key_eq
  · rw [hkey', hkey]
    exact hopen.key_length

theorem fits_save (s : Store) : Durability.Fits s.save ↔ Durability.Fits s := by
  rw [Durability.Fits, Durability.Fits, Store.save_contacts, Store.save_messages,
    Store.save_requests]

theorem counted_save (s : Store) : Counted s.save ↔ Counted s := by
  rw [Counted, Counted, Store.save_contacts, Store.save_messages, Store.save_requests]

theorem writes_grow (s : Store) (cs : List Durability.Call) :
    s.writes <+: (cs.foldl Durability.Call.run s).writes := by
  induction cs generalizing s with
  | nil => exact List.prefix_rfl
  | cons c cs ih =>
    refine List.IsPrefix.trans ?_ (ih (c.run s))
    cases call_outcome s c with
    | same ht => rw [ht]
    | saved s' ht hwrites =>
      rw [ht, Store.save, ← hwrites]
      split
      · exact List.prefix_append _ _
      · exact List.prefix_rfl

/-- What some changes have come to, when these of their writes were made. -/
structure Saves (C : Sodium) (path passphrase : Bytes) (s : Store) (disk : Bytes → Option Bytes)
    (made : List (Write × Option Nonce)) (kept kept' : Store) : Prop where
  keeps : Keeps C path passphrase s (record C disk made) kept'
  unsaved : saved made = false → kept' = kept
  saved : saved made = true → kept'.messages = s.messages

theorem edits_save (cs : List Durability.Call) (htail : ∀ c ∈ cs.tail, appended c = [])
    (keeps : Keeps C path passphrase s disk kept) (sized : Sized s cs)
    (fates : List (Option Nonce)) {s' : Store} (hs' : s' = cs.foldl Durability.Call.run s) :
    (∃ kept', Saves C path passphrase s' disk ((writes s s').zip fates) kept kept') ∧
    ((writes s s').length ≤ fates.length → (∀ fate ∈ fates, fate.isSome) →
      Durable C path passphrase ⟨s, disk⟩ →
      Durable C path passphrase ⟨s', record C disk ((writes s s').zip fates)⟩) := by
  induction cs generalizing s disk kept fates with
  | nil =>
    have hnone : writes s s' = [] := by
      rw [hs', List.foldl_nil]
      exact List.drop_length
    rw [hnone, List.zip_nil_left, hs', List.foldl_nil]
    refine ⟨⟨kept, keeps, fun _ => rfl, fun h => ?_⟩, fun _ _ durable => durable⟩
    cases h
  | cons c cs ih =>
    obtain ⟨hfitting, hcount, hsized⟩ := sized
    rw [List.tail_cons] at htail
    have hquiet : ∀ c ∈ cs.tail, appended c = [] := fun c hc => htail c (List.mem_of_mem_tail hc)
    rw [List.foldl_cons] at hs'
    have hmessages : s'.messages = (c.run s).messages := by
      rw [hs', edits_messages, List.flatMap_eq_nil_iff.mpr htail, List.append_nil]
    cases call_outcome s c with
    | same ht =>
      rw [ht] at hsized hs'
      exact ih hquiet keeps hsized fates hs'
    | saved t ht hwrites hpersistent hpath hkey hsalt hfits =>
      have hp : t.persistent = true := hpersistent.trans keeps.opened.persistent
      have hfits' : Durability.Fits (c.run s) := by
        rw [ht, fits_save]
        exact (hfits keeps.fits).mpr hfitting
      let w : Write := ⟨t.path, t.salt, t.key, encode t.contacts t.messages t.requests⟩
      have hw : (c.run s).writes = s.writes ++ [w] := by
        rw [ht, Store.save, if_pos hp, hwrites]
      obtain ⟨later, hlater⟩ := writes_grow (c.run s) cs
      rw [← hs'] at hlater
      have hrest : writes (c.run s) s' = later := by
        rw [writes, ← hlater, List.drop_left]
      have hall : writes s s' = w :: later := by
        rw [writes, ← hlater, hw, List.append_assoc, List.drop_left, List.singleton_append]
      have hkept : Keeps C path passphrase (c.run s) disk kept := by
        refine ⟨?_, hfits', keeps.durable⟩
        rw [ht]
        exact open_save keeps.opened hpersistent hpath hkey hsalt
      rw [hall]
      cases fates with
      | nil =>
        have hsaves := (ih hquiet hkept hsized [] hs').1
        rw [List.zip_nil_right] at hsaves ⊢
        refine ⟨hsaves, fun hlen => ?_⟩
        rw [List.length_cons, List.length_nil] at hlen
        omega
      | cons fate fates =>
        rw [List.zip_cons_cons]
        cases fate with
        | none =>
          obtain ⟨kept', saves⟩ := (ih hquiet hkept hsized fates hs').1
          rw [hrest] at saves
          refine ⟨⟨kept', saves.keeps, saves.unsaved, saves.saved⟩, fun _ hsome => ?_⟩
          cases hsome none List.mem_cons_self
        | some nonce =>
          obtain ⟨hopen, hdurable⟩ := open_put hp (hpath.trans keeps.opened.path_eq)
            (hsalt ▸ keeps.opened.salt_length) (hkey.trans (hsalt ▸ keeps.opened.key_eq))
            (hkey ▸ keeps.opened.key_length) (by rwa [ht, counted_save] at hcount) nonce disk
            (m := ⟨c.run s, put C nonce disk w⟩) (by rw [ht])
          have durable := hdurable.mpr ((hfits keeps.fits).mpr hfitting)
          obtain ⟨⟨kept', saves⟩, hflawless⟩ :=
            ih hquiet ⟨hopen, hfits', durable⟩ hsized fates hs'
          rw [hrest] at saves hflawless
          refine ⟨⟨kept', saves.keeps, fun h => ?_, fun _ => ?_⟩, fun hlen hsome _ => ?_⟩
          · cases h
          · cases hs : saved (later.zip fates) with
            | true => exact saves.saved hs
            | false => rw [saves.unsaved hs, hmessages]
          · rw [List.length_cons, List.length_cons] at hlen
            exact hflawless (by omega) (fun fate hfate => hsome fate (List.mem_cons_of_mem _ hfate))
              durable

end Storing

section Lives

variable {C : Sodium} {path passphrase : Bytes} {start : List Message} {h : History Device Turn}
variable {d d₀ : Device} {t : Turn} {s kept : Store} {disk : Bytes → Option Bytes}

theorem edits_tail (env : Env) (s : Store) (d : Deed) :
    ∀ c ∈ (d.edits env s).tail, appended c = [] := by
  intro c hc
  cases d with
  | requested peer greeting =>
    rw [Deed.edits, List.tail_cons, List.mem_append, List.mem_singleton] at hc
    obtain hc | rfl := hc
    · split at hc
      · rw [List.mem_singleton.mp hc]
        rfl
      · cases hc
    · rfl
  | answered peer accept =>
    rw [Deed.edits, List.tail_cons, List.mem_singleton] at hc
    rw [hc]
    rfl
  | _ => cases hc

theorem called_saves (keeps : Keeps C path passphrase d.engine.contacts d.disk kept)
    (lawful : Lawful C d t) :
    (∃ kept', Saves C path passphrase (called C d t).contacts d.disk (made C d t) kept kept') ∧
    (Flawless C d t → Durable C path passphrase ⟨d.engine.contacts, d.disk⟩ →
      Durable C path passphrase ⟨(called C d t).contacts, record C d.disk (made C d t)⟩) := by
  have hshows := (shows_call (C := C) t.env d.engine t.call lawful.1).contacts
  obtain ⟨hsaves, hflawless⟩ :=
    edits_save _ (edits_tail t.env _ _) keeps lawful.2 t.fates hshows
  exact ⟨hsaves, fun flawless => hflawless flawless.1 flawless.2⟩

theorem reopened_keeps (keeps : Keeps C path passphrase s disk kept)
    (salt : { bytes : Bytes // bytes.length = kKdfSaltBytes }) (nonce : Nonce) {m : Medium}
    (hm : m = (opened C salt nonce ⟨{}, disk⟩ path passphrase).1) :
    Keeps C path passphrase m.store m.disk m.store ∧ m.store.messages = kept.messages := by
  have hok : (opened C salt nonce ⟨{}, disk⟩ path passphrase).2 = true :=
    (keeps.durable {} salt nonce).1
  have hsame : (opened C salt nonce ⟨{}, disk⟩ path passphrase).1.store.contacts = kept.contacts ∧
      (opened C salt nonce ⟨{}, disk⟩ path passphrase).1.store.messages = kept.messages ∧
      (opened C salt nonce ⟨{}, disk⟩ path passphrase).1.store.requests = kept.requests :=
    (keeps.durable {} salt nonce).2
  have hopened : opened C salt nonce ⟨{}, disk⟩ path passphrase = (m, true) := Prod.ext hm.symm hok
  rw [← hm] at hsame
  obtain ⟨hcontacts, hmessages, hrequests⟩ := hsame
  have storable := keeps.storable
  rw [← hcontacts, ← hmessages, ← hrequests] at storable
  have hfits : Durability.Fits m.store :=
    ⟨storable.contacts_fit, storable.messages_fit, storable.requests_fit⟩
  obtain ⟨hopen, hdurable⟩ := opened_open hopened
    ⟨storable.contacts_count, storable.messages_count, storable.requests_count⟩
  exact ⟨⟨hopen, hfits, hdurable.mpr hfits⟩, hmessages⟩

theorem step_stays (hr : t.restart = none) : d.step C path passphrase t =
    ⟨called C d t, record C d.disk (made C d t)⟩ := by
  rw [Device.step, hr]

theorem step_reopens {salt : { bytes : Bytes // bytes.length = kKdfSaltBytes }} {nonce : Nonce}
    (hr : t.restart = some (salt, nonce)) :
    let m := (opened C salt nonce ⟨{}, record C d.disk (made C d t)⟩ path passphrase).1
    (d.step C path passphrase t).engine.contacts = m.store ∧
      (d.step C path passphrase t).disk = m.disk := by
  rw [Device.step, hr]
  exact ⟨(openStore_store C _ _ path passphrase).2, rfl⟩

/-- Memory and file are those of the diary; and nothing is missing in them as long as no write has
been. -/
structure Remembers (C : Sodium) (path passphrase : Bytes) (start : List Message)
    (h : History Device Turn) (d : Device) (kept : Store) : Prop where
  keeps : Keeps C path passphrase d.engine.contacts d.disk kept
  memory : d.engine.contacts.messages = (diary C start h).memory
  file : kept.messages = (diary C start h).file
  whole : (∀ m ∈ h, Flawless C m.1 m.2) →
    Durable C path passphrase ⟨d.engine.contacts, d.disk⟩ ∧
      (diary C start h).memory = start ++ journal C (calls h)

theorem remembers_turn (remembers : Remembers C path passphrase start h d kept)
    (lawful : Lawful C d t) :
    ∃ kept', Remembers C path passphrase start ((d, t) :: h) (d.step C path passphrase t)
      kept' := by
  obtain ⟨⟨kept', saves⟩, hflawless⟩ := called_saves remembers.keeps lawful
  have hmessages : (called C d t).contacts.messages =
      (diary C start h).memory ++ noted C d.engine (t.env, t.call) := by
    rw [← remembers.memory]
    exact step_messages d.engine (m := (t.env, t.call)) lawful.1
  have hkept : kept'.messages = if saved (made C d t) then
      (diary C start h).memory ++ noted C d.engine (t.env, t.call) else (diary C start h).file := by
    cases hs : saved (made C d t) with
    | true => rw [if_pos rfl, saves.saved hs, hmessages]
    | false => rw [if_neg Bool.false_ne_true, saves.unsaved hs, remembers.file]
  have hwhole : (∀ m ∈ (d, t) :: h, Flawless C m.1 m.2) →
      Durable C path passphrase ⟨(called C d t).contacts, record C d.disk (made C d t)⟩ ∧
        (diary C start h).memory ++ noted C d.engine (t.env, t.call) =
          start ++ journal C (calls ((d, t) :: h)) := by
    intro hall
    obtain ⟨hnow, hbefore⟩ := List.forall_mem_cons.mp hall
    obtain ⟨durable, hmemory⟩ := remembers.whole hbefore
    refine ⟨hflawless hnow durable, ?_⟩
    rw [hmemory, List.append_assoc]
    rfl
  cases hr : t.restart with
  | none =>
    rw [step_stays hr]
    refine ⟨kept', saves.keeps, ?_, ?_, ?_⟩
    · rw [diary, Diary.step, hr]
      exact hmessages
    · rw [diary, Diary.step]
      exact hkept
    · rw [diary, Diary.step, hr]
      exact hwhole
  | some x =>
    obtain ⟨salt, nonce⟩ := x
    obtain ⟨hstore, hdisk⟩ := @step_reopens C path passphrase d t salt nonce hr
    obtain ⟨again, hsame⟩ := reopened_keeps saves.keeps salt nonce rfl
    refine ⟨(d.step C path passphrase t).engine.contacts, ?_, ?_, ?_, fun hall => ?_⟩
    · rw [hstore, hdisk]
      exact again
    · rw [hstore, hsame, hkept, diary, Diary.step, hr]
      rfl
    · rw [hstore, hsame, hkept, diary, Diary.step]
    · obtain ⟨durable, hmemory⟩ := hwhole hall
      rw [hstore, hdisk]
      refine ⟨again.durable, ?_⟩
      rw [← hmemory, ← hmessages, ← durable_messages durable saves.keeps.durable, hkept, diary,
        Diary.step, hr]
      rfl

/-- The history of messages outlives the process. Whatever a user does, whichever writes of the
file fail, and wherever in its calls the process stops: what is in memory is what the diary says,
and so is what any other engine gets from the file; the file lacks at most what was noted last;
nothing is there that was not noted, and all of it in its order; and as long as no write fails, all
is there, contacts and requests included. -/
theorem history_survives
    (hopen : Durability.Open C path passphrase ⟨d₀.engine.contacts, d₀.disk⟩)
    (durable : Durable C path passphrase ⟨d₀.engine.contacts, d₀.disk⟩)
    (run : Run (Device.step C path passphrase) (fun _ d t => Lawful C d t) d₀ h d) :
    let start := d₀.engine.contacts.messages
    d.engine.contacts.messages = (diary C start h).memory ∧
    (∀ s salt nonce,
      let (m, ok) := opened C salt nonce ⟨s, d.disk⟩ path passphrase
      ok = true ∧ m.store.messages = (diary C start h).file) ∧
    (diary C start h).file <+: (diary C start h).memory ∧
    (diary C start h).memory.Sublist (start ++ journal C (calls h)) ∧
    ((∀ m ∈ h, Flawless C m.1 m.2) →
      Durable C path passphrase ⟨d.engine.contacts, d.disk⟩ ∧
        d.engine.contacts.messages = start ++ journal C (calls h)) := by
  intro start
  obtain ⟨kept, remembers⟩ : ∃ kept, Remembers C path passphrase start h d kept := by
    refine run.invariant (fun h d => ∃ kept, Remembers C path passphrase start h d kept) ?_ ?_
    · exact ⟨d₀.engine.contacts, ⟨hopen, fits_of_durable hopen durable, durable⟩, rfl, rfl,
        fun _ => ⟨durable, (List.append_nil _).symm⟩⟩
    · rintro h d t - ⟨kept, remembers⟩ lawful
      exact remembers_turn remembers lawful
  refine ⟨remembers.memory, fun s salt nonce => ?_, diary_file h, diary_sublist h, fun hall => ?_⟩
  · obtain ⟨hok, -, hmessages, -⟩ := remembers.keeps.durable s salt nonce
    exact ⟨hok, hmessages.trans remembers.file⟩
  · obtain ⟨hdurable, hmemory⟩ := remembers.whole hall
    exact ⟨hdurable, remembers.memory.trans hmemory⟩

end Lives

section Concrete

instance (s : Store) : Decidable (Counted s) := inferInstanceAs (Decidable (_ ∧ _ ∧ _))

instance (s : Store) (c : Durability.Call) : Decidable (Fitting s c) := by
  cases c
  · exact inferInstanceAs (Decidable (_ ∧ _))
  · exact inferInstanceAs (Decidable (_ ∧ _))
  · exact inferInstanceAs (Decidable (_ ∧ _))
  · exact inferInstanceAs (Decidable (_ ∨ _))
  · exact inferInstanceAs (Decidable True)

instance decidableSized : (s : Store) → (cs : List Durability.Call) → Decidable (Sized s cs)
  | _, [] => inferInstanceAs (Decidable True)
  | s, c :: cs =>
    have := decidableSized (c.run s) cs
    inferInstanceAs (Decidable (_ ∧ _ ∧ _))

instance (C : Sodium) (d : Device) (t : Turn) : Decidable (Lawful C d t) :=
  inferInstanceAs (Decidable (_ ∧ _))

@[irreducible] def installed : Device where
  engine := Restart.opened
  disk :=
    (opened reference Restart.freshDisk.salt fixedNonce ⟨{}, fun _ => none⟩ [112] [113]).1.disk

theorem installed_opened :
    opened reference Restart.freshDisk.salt fixedNonce ⟨{}, fun _ => none⟩ [112] [113] =
      (⟨installed.engine.contacts, installed.disk⟩, true) := by
  have hstore := (openStore_store reference Restart.freshDisk (newEngines .A) [112] [113]).2
  unfold installed
  refine Prod.ext ?_ (by decide +kernel)
  exact congrArg (fun s => Medium.mk s _) hstore.symm

theorem installed_empty : installed.engine.contacts.contacts = [] ∧
    installed.engine.contacts.messages = [] ∧ installed.engine.contacts.requests = [] := by
  decide +kernel

/-- B is added and heard; what is said to it is not written down, since the disk is full; the
process stops; and B is heard again. -/
def living : History Device Turn × Device :=
  Run.replay (Device.step reference [112] [113]) [] installed
    [⟨clock, .addPeer (twoParties.key .B) address, [some fixedNonce], none⟩,
      ⟨clock, .poll (some (box .B 0 .message [7])), [some fixedNonce], none⟩,
      ⟨clock, .send (twoParties.key .B) [1], [none], none⟩,
      ⟨clock, .tick, [], some (Restart.freshDisk.salt, fixedNonce)⟩,
      ⟨clock, .poll (some (box .B 1 .message [8])), [some fixedNonce], none⟩]

theorem history_survives_living :
    living.2.engine.contacts.messages.map (·.text) = [[7], [8]] ∧
      living.2.engine.contacts.messages.Sublist
        (installed.engine.contacts.messages ++ journal reference (calls living.1)) ∧
      (journal reference (calls living.1)).map (·.text) = [[7], [1], [8]] := by
  have run : Run (Device.step reference [112] [113]) (fun _ d t => Lawful reference d t) installed
      living.1 living.2 := Run.replay_run .start (by decide +kernel)
  obtain ⟨hcontacts, hmessages, hrequests⟩ := installed_empty
  have hcounted : Counted installed.engine.contacts := by
    rw [Counted, hcontacts, hmessages, hrequests]
    decide
  obtain ⟨hopen, hdurable⟩ := opened_open installed_opened hcounted
  have durable : Durable reference [112] [113] ⟨installed.engine.contacts, installed.disk⟩ := by
    apply hdurable.mpr
    rw [Durability.Fits, hcontacts, hmessages, hrequests]
    exact ⟨List.forall_mem_nil _, List.forall_mem_nil _, List.forall_mem_nil _⟩
  obtain ⟨hmemory, -, -, hsublist, -⟩ := history_survives hopen durable run
  rw [← hmemory] at hsublist
  exact ⟨by decide +kernel, hsublist, by decide +kernel⟩

end Concrete

end OpenMesh.Messaging.Survival
