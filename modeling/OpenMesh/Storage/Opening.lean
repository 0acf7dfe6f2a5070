import OpenMesh.Storage.Durability

namespace OpenMesh.Storage.Opening

open OpenMesh.Core.Buffers OpenMesh.Crypto.Primitives OpenMesh.Crypto.Reference
open OpenMesh.Storage.Blob OpenMesh.Storage.Database OpenMesh.Storage.Durability

/-- What a database shows, and what its later saves use. -/
structure Same (s s' : Store) : Prop where
  contacts : s'.contacts = s.contacts
  messages : s'.messages = s.messages
  requests : s'.requests = s.requests
  persistent : s'.persistent = s.persistent
  path : s'.path = s.path
  key : s'.key = s.key
  salt : s'.salt = s.salt

def written (s : Store) (calls : List Call) : List Write :=
  (calls.foldl Call.run s).writes.drop s.writes.length

/-- A call of `open` on a path leaves the database as it was, writes nothing over a file that
is there, and has no effect on what is written later. -/
structure Undone (io : OpenIO) (s s' : Store) : Prop where
  same : Same s s'
  file : io.pathExists = true → s'.writes = s.writes
  later : ∀ calls, written s' calls = written s calls

theorem save_writes (s : Store) : ∃ new : List Write, ∀ writes,
    { s with writes }.save = { s with writes := writes ++ new } := by
  by_cases hp : s.persistent
  · refine ⟨[⟨s.path, s.salt, s.key, encode s.contacts s.messages s.requests⟩], fun writes => ?_⟩
    simp [Store.save, hp]
  · exact ⟨[], fun writes => by simp [Store.save, hp]⟩

theorem run_writes (s : Store) (c : Call) : ∃ (s₁ : Store) (new : List Write), ∀ writes,
    c.run { s with writes } = { s₁ with writes := writes ++ new } := by
  cases c with
  | upsert contact =>
    cases hcs : Store.replaceFirst contact s.contacts with
    | some cs =>
      obtain ⟨new, hnew⟩ := save_writes { s with contacts := cs }
      refine ⟨{ s with contacts := cs }, new, fun writes => ?_⟩
      simpa only [Call.run, Store.upsert, hcs] using hnew writes
    | none =>
      obtain ⟨new, hnew⟩ := save_writes { s with contacts := s.contacts ++ [contact] }
      refine ⟨{ s with contacts := s.contacts ++ [contact] }, new, fun writes => ?_⟩
      simpa only [Call.run, Store.upsert, hcs] using hnew writes
  | addContact contact =>
    obtain ⟨new, hnew⟩ := save_writes { s with contacts := s.contacts ++ [contact] }
    exact ⟨{ s with contacts := s.contacts ++ [contact] }, new, hnew⟩
  | appendMessage message =>
    obtain ⟨new, hnew⟩ := save_writes { s with messages := s.messages ++ [message] }
    exact ⟨{ s with messages := s.messages ++ [message] }, new, hnew⟩
  | addRequest request =>
    by_cases hany : s.requests.any (·.peer = request.peer)
    · refine ⟨s, [], fun writes => ?_⟩
      simp only [Call.run, Store.addRequest, if_pos hany, List.append_nil]
    · obtain ⟨new, hnew⟩ := save_writes { s with requests := s.requests ++ [request] }
      refine ⟨{ s with requests := s.requests ++ [request] }, new, fun writes => ?_⟩
      simpa only [Call.run, Store.addRequest, if_neg hany] using hnew writes
  | removeRequest peer =>
    obtain ⟨new, hnew⟩ := save_writes { s with requests := s.requests.filter (·.peer ≠ peer) }
    by_cases hlen : (s.requests.filter (·.peer ≠ peer)).length ≠ s.requests.length
    · refine ⟨{ s with requests := s.requests.filter (·.peer ≠ peer) }, new, fun writes => ?_⟩
      simpa only [Call.run, Store.removeRequest, if_pos hlen] using hnew writes
    · refine ⟨{ s with requests := s.requests.filter (·.peer ≠ peer) }, [], fun writes => ?_⟩
      simp only [Call.run, Store.removeRequest, if_neg hlen, List.append_nil]

theorem runs_writes (calls : List Call) (s : Store) : ∃ (s₁ : Store) (new : List Write), ∀ writes,
    calls.foldl Call.run { s with writes } = { s₁ with writes := writes ++ new } := by
  induction calls generalizing s with
  | nil => exact ⟨s, [], fun writes => by rw [List.foldl_nil, List.append_nil]⟩
  | cons c calls ih =>
    obtain ⟨s₁, new, hrun⟩ := run_writes s c
    obtain ⟨s₂, new', hruns⟩ := ih s₁
    refine ⟨s₂, new ++ new', fun writes => ?_⟩
    rw [List.foldl_cons, hrun, hruns, List.append_assoc]

theorem written_same {s s' : Store} (h : Same s s') (calls : List Call) :
    written s' calls = written s calls := by
  obtain ⟨s₁, new, hruns⟩ := runs_writes calls s
  have hs : s = { s with writes := s.writes } := rfl
  have hs' : s' = { s with writes := s'.writes } := by
    obtain ⟨contacts, messages, requests, persistent, path, key, salt, writes⟩ := s'
    obtain ⟨hc, hm, hr, hp, hpath, hk, hsalt⟩ := h
    dsimp only at hc hm hr hp hpath hk hsalt
    rw [hc, hm, hr, hp, hpath, hk, hsalt]
  have hnew : ∀ writes, ({ s₁ with writes := writes ++ new } : Store).writes.drop writes.length =
      new := fun writes => List.drop_left
  rw [written, written, hs']
  conv_rhs => rw [hs]
  rw [hruns, hruns, hnew, hnew]

/-- The database is on this path already, with the very salt that was drawn. -/
def Already (C : Sodium) (io : OpenIO) (s : Store) (path passphrase : Bytes) : Prop :=
  s.persistent = true ∧ s.path = path ∧ s.salt = io.salt ∧ s.key = deriveKey C passphrase io.salt

theorem openAt_present {C : Sodium} {io : OpenIO} (s : Store) (path passphrase : Bytes)
    (hexists : io.pathExists = true) (hfail : (s.openAt C io path passphrase).2 = false) :
    (s.openAt C io path passphrase).1 = s := by
  revert hfail
  unfold Store.openAt
  rw [if_pos hexists]
  split
  · exact fun _ => rfl
  · dsimp only
    split
    · exact fun _ => rfl
    · split
      · exact fun _ => rfl
      · split
        · exact fun _ => rfl
        · nofun

/-- A failed `open` is undone, exactly where it did not get as far as the first write of a new
file, or where that changes nothing. -/
theorem open_all_or_nothing (C : Sodium) (io : OpenIO) (s : Store) (path passphrase : Bytes) :
    ((s.openAt C io path passphrase).2 = false →
      Undone io s (s.openAt C io path passphrase).1) ↔
      io.pathExists = true ∨ deriveKey C passphrase io.salt = [] ∨ io.writeOk = true ∨
        Already C io s path passphrase := by
  have hrefl : Undone io s s := ⟨⟨rfl, rfl, rfl, rfl, rfl, rfl, rfl⟩, fun _ => rfl, fun _ => rfl⟩
  cases hexists : io.pathExists with
  | true =>
    refine iff_of_true (fun hfail => ?_) (Or.inl rfl)
    rw [openAt_present s path passphrase hexists hfail]
    exact hrefl
  | false =>
    by_cases hkey : deriveKey C passphrase io.salt = []
    · refine iff_of_true (fun _ => ?_) (Or.inr (Or.inl hkey))
      simpa [Store.openAt, hexists, hkey] using hrefl
    · have hopen : s.openAt C io path passphrase = ({ s with
          salt := io.salt, key := deriveKey C passphrase io.salt, path, persistent := true }.save,
          io.writeOk) := by
        simp [Store.openAt, hexists, hkey]
      cases hwrite : io.writeOk with
      | true =>
        refine iff_of_true (fun hfail => ?_) (Or.inr (Or.inr (Or.inl rfl)))
        rw [hopen, hwrite] at hfail
        cases hfail
      | false =>
        simp only [hopen, hwrite, hkey, Bool.false_eq_true, false_or, true_implies]
        constructor
        · rintro ⟨⟨-, -, -, hpersistent, hpath, hkey', hsalt⟩, -, -⟩
          obtain ⟨hp, hpath', hk, hs⟩ := save_fixed { s with
            salt := io.salt, key := deriveKey C passphrase io.salt, path, persistent := true }
          exact ⟨hpersistent.symm.trans hp, hpath.symm.trans hpath', hsalt.symm.trans hs,
            hkey'.symm.trans hk⟩
        · rintro ⟨hpersistent, hpath, hsalt, hkey'⟩
          have hsame : Same s { s with
              salt := io.salt, key := deriveKey C passphrase io.salt, path,
              persistent := true }.save := by
            obtain ⟨hp, hpath', hk, hs⟩ := save_fixed { s with
              salt := io.salt, key := deriveKey C passphrase io.salt, path, persistent := true }
            refine ⟨?_, ?_, ?_, hp.trans hpersistent.symm, hpath'.trans hpath.symm,
              hk.trans hkey'.symm, hs.trans hsalt.symm⟩
            all_goals simp
          refine ⟨hsame, fun h => ?_, written_same hsame⟩
          rw [hexists] at h
          cases h

def unwritable : OpenIO := ⟨false, none, fixedSalt, false⟩

/-- A database that is open on one file moves on to a path where nothing can be written. -/
theorem failed_open_moves :
    (created.store.openAt reference unwritable [119] secret).2 = false ∧
    ¬ Undone unwritable created.store
      (created.store.openAt reference unwritable [119] secret).1 ∧
    (created.store.openAt reference unwritable [119] secret).1.path = [119] ∧
    created.store.path = vault := by
  have hpath : created.store.path = vault := by decide +kernel
  have hmoved : (created.store.openAt reference unwritable [119] secret).1.path = [119] := by
    decide +kernel
  refine ⟨by decide +kernel, fun undone => ?_, hmoved, hpath⟩
  have hsame := undone.same.path
  rw [hmoved, hpath] at hsame
  cases hsame

end OpenMesh.Storage.Opening
