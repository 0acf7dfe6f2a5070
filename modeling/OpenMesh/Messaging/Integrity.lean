import OpenMesh.Messaging.Pairs

namespace OpenMesh.Messaging.Integrity

open OpenMesh.Core.Buffers OpenMesh.Crypto.Primitives OpenMesh.Crypto.Reference
open OpenMesh.Library.Runs
open OpenMesh.Protocol.Envelope OpenMesh.Net.Transport OpenMesh.Storage.Database
open OpenMesh.Messaging.Sessions OpenMesh.Messaging.Operations OpenMesh.Messaging.Sides
open OpenMesh.Messaging.Projection OpenMesh.Messaging.Simulation OpenMesh.Messaging.Pairs

/-- The texts that left one side, oldest first. -/
def told (X : Party) : History Pair (Party × Act) → List Bytes
  | [] => []
  | (_, (Y, .tell text true)) :: h => told X h ++ if Y = X then [text] else []
  | _ :: h => told X h

def messages (s : Side) : List Letter := s.letters.filter (·.type = .message)

/-- The letters of `X` and what became of them on the other side. -/
structure Ledger (X : Party) (p₀ : Pair) (h : History Pair (Party × Act)) (p : Pair) : Prop where
  increasing : (p X).letters.Pairwise fun l l' => l.counter < l'.counter
  below : ∀ l ∈ (p X).letters, l.counter < (p X).counter
  told : (messages (p X)).map (·.text) = told X h
  heard : ∃ got : List Letter, got ⊆ messages (p X) ∧
    (got.Pairwise fun l l' => l.counter < l'.counter) ∧
    (∀ l ∈ got, ∃ c, (p X.other).mark = some c ∧ l.counter ≤ c) ∧
    (p X.other).inbox = (p₀ X.other).inbox ++ got.map (·.text) ∧
    ∃ handed, (p X.other).handed = (p₀ X.other).handed ++ handed ∧
      handed.Sublist (got.map (·.text))

theorem ledger_start {X : Party} {p₀ : Pair} (h : ∀ Y, (p₀ Y).Starting) : Ledger X p₀ [] p₀ := by
  refine ⟨?_, ?_, ?_, ⟨[], by simp⟩⟩
  · rw [(h X).letters]
    exact .nil
  · simp [(h X).letters]
  · simp [messages, (h X).letters, Integrity.told]

theorem posted_counter {a : Act} {c : UInt64} {l : Letter} (h : l ∈ a.posted c) :
    l.counter = c ∧ a.sealed.isSome := by
  unfold Act.posted at h
  split at h
  · next heq => simp_all
  · cases h

theorem messages_act (s : Side) (a : Act) :
    (messages (s.act a)).map (·.text) = (messages s).map (·.text) ++
      match a with
      | .tell text true => [text]
      | _ => [] := by
  rw [messages, Side.act_letters, List.filter_append, List.map_append]
  congr 1
  cases a with
  | tell text leaves => cases leaves <;> simp [Act.posted, Act.sealed]
  | ask text leaves => cases leaves <;> simp [Act.posted, Act.sealed]
  | answer accept leaves => cases leaves <;> simp [Act.posted, Act.sealed]
  | _ => simp [Act.posted, Act.sealed]

theorem told_cons (X Y : Party) (a : Act) (p : Pair) (h : History Pair (Party × Act)) :
    told X ((p, (Y, a)) :: h) = told X h ++ if Y = X then
      match a with
      | .tell text true => [text]
      | _ => []
    else [] := by
  cases a with
  | tell text leaves => cases leaves <;> simp [told]
  | _ => simp [told]

theorem lt_succ_of_le {c : UInt64} (h : c ≤ c + 1) : c < c + 1 := by
  refine UInt64.lt_of_le_of_ne h fun he => ?_
  have h1 : (1 : UInt64) = 0 := by
    have := congrArg (· - c) he
    simpa using this.symm
  exact absurd h1 (by decide)

theorem ledger_post {X : Party} {p₀ p : Pair} {h : History Pair (Party × Act)} {a : Act}
    (ledger : Ledger X p₀ h p) (hwrap : (p X).counter ≤ ((p X).act a).counter) :
    Ledger X p₀ ((p, (X, a)) :: h) (p.step (X, a)) := by
  have hnew : ∀ l ∈ a.posted (p X).counter, l.counter < ((p X).act a).counter := by
    intro l hl
    obtain ⟨hc, hs⟩ := posted_counter hl
    rw [Side.act_counter, if_pos hs] at hwrap ⊢
    rw [hc]
    exact lt_succ_of_le hwrap
  refine ⟨?_, ?_, ?_, ?_⟩
  · rw [Pair.step_self, Side.act_letters, List.pairwise_append]
    refine ⟨ledger.increasing, ?_, fun l hl l' hl' => ?_⟩
    · unfold Act.posted
      split <;> simp
    · rw [(posted_counter hl').1]
      exact ledger.below l hl
  · intro l hl
    rw [Pair.step_self] at hl ⊢
    rw [Side.act_letters, List.mem_append] at hl
    obtain hl | hl := hl
    · exact UInt64.lt_of_lt_of_le (ledger.below l hl) hwrap
    · exact hnew l hl
  · rw [Pair.step_self, messages_act, ledger.told, told_cons, if_pos rfl]
  · obtain ⟨got, hsub, hrest⟩ := ledger.heard
    rw [Pair.step_self, Pair.step_other]
    refine ⟨got, fun l hl => ?_, hrest⟩
    rw [messages, Side.act_letters, List.filter_append]
    exact List.mem_append_left _ (hsub hl)

theorem ledger_receive {X : Party} {p₀ p : Pair} {h : History Pair (Party × Act)} {a : Act}
    (ledger : Ledger X p₀ h p) (permits : p.Permits (X.other, a)) :
    Ledger X p₀ ((p, (X.other, a)) :: h) (p.step (X.other, a)) := by
  have hX : p.step (X.other, a) X = p X := by
    simpa only [Party.other_other] using p.step_other X.other a
  refine ⟨by rw [hX]; exact ledger.increasing, by rw [hX]; exact ledger.below, ?_, ?_⟩
  · rw [hX, told_cons, if_neg X.other_ne, List.append_nil]
    exact ledger.told
  obtain ⟨got, hsub, hinc, hmark, hinbox, handed, hhanded, hle⟩ := ledger.heard
  rw [hX, Pair.step_self, Side.act_inbox, Side.act_handed, hinbox, hhanded]
  by_cases hd : ∃ l, a = .deliver l ∧ (p X.other).Takes l
  · obtain ⟨l, rfl, ht⟩ := hd
    have hl : l ∈ (p X).letters := by simpa using permits.posted l rfl
    have hlt : ∀ g ∈ got, g.counter < l.counter := by
      intro g hg
      obtain ⟨c, hc, hgc⟩ := hmark g hg
      exact UInt64.lt_of_le_of_lt hgc (ht.2 c hc)
    have hmark' : ((p X.other).act (.deliver l)).mark = some l.counter := by
      rw [Side.act_mark_deliver, if_pos ht]
    rw [hmark']
    by_cases hm : l.type = .message
    · refine ⟨got ++ [l], ?_, ?_, ?_, ?_, ?_⟩
      · intro g hg
        obtain hg | hg := List.mem_append.mp hg
        · exact hsub hg
        · rw [List.mem_singleton.mp hg]
          exact List.mem_filter.mpr ⟨hl, by simp [hm]⟩
      · refine List.pairwise_append.mpr ⟨hinc, List.pairwise_singleton _ _, ?_⟩
        simpa using hlt
      · intro g hg
        refine ⟨l.counter, rfl, ?_⟩
        obtain hg | hg := List.mem_append.mp hg
        · exact UInt64.le_of_lt (hlt g hg)
        · rw [List.mem_singleton.mp hg]
          exact UInt64.le_refl _
      · simp [Side.heard, ht, hm]
      · refine ⟨handed ++ if (p X.other).listening then [l.text] else [], ?_, ?_⟩
        · simp [Side.heard, ht, hm]
        · rw [List.map_append]
          refine hle.append ?_
          split
          · exact List.Sublist.refl _
          · exact List.nil_sublist _
    · refine ⟨got, hsub, hinc, fun g hg => ⟨l.counter, rfl, UInt64.le_of_lt (hlt g hg)⟩, ?_,
        handed, ?_, hle⟩
      · simp [Side.heard, hm]
      · simp [Side.heard, hm]
  · have hheard : (p X.other).heard a = [] := by
      cases a with
      | deliver l =>
        have ht : ¬ (p X.other).Takes l := fun ht => hd ⟨l, rfl, ht⟩
        simp [Side.heard, ht]
      | _ => rfl
    have hmark' : ((p X.other).act a).mark = (p X.other).mark := by
      cases a with
      | deliver l =>
        have ht : ¬ (p X.other).Takes l := fun ht => hd ⟨l, rfl, ht⟩
        rw [Side.act_mark_deliver, if_neg ht]
      | _ => rfl
    rw [hheard, hmark']
    exact ⟨got, hsub, hinc, hmark, by simp, handed, by simp, hle⟩

theorem ledger_run {X : Party} {p₀ p : Pair} {h : History Pair (Party × Act)}
    (hstart : ∀ Y, (p₀ Y).Starting)
    (run : Run Pair.step (fun _ p m => p.Permits m ∧ (p m.1).counter ≤ ((p m.1).act m.2).counter)
      p₀ h p) : Ledger X p₀ h p := by
  refine run.invariant _ (ledger_start hstart) fun h p m _ ledger hok => ?_
  obtain ⟨Y, a⟩ := m
  obtain rfl | rfl := X.eq_or_other Y
  · exact ledger_post ledger hok.2
  · exact ledger_receive ledger hok.1

theorem inbox_act {s : Side} {a : Act} (h : (s.act a).inbox ≠ s.inbox) :
    s.trust = some .accepted ∧ (s.act a).trust = some .accepted ∧ ∃ text,
      (s.act a).inbox = s.inbox ++ [text] ∧
      (s.act a).handed = s.handed ++ if s.listening then [text] else [] := by
  have hne : s.heard a ≠ [] := by
    intro hn
    rw [Side.act_inbox, hn, List.append_nil] at h
    exact h rfl
  rw [Side.act_inbox, Side.act_handed]
  cases a with
  | deliver l =>
    simp only [Side.heard] at hne ⊢
    split at hne
    · next ht =>
      have htrust := ht.1.1 ht.2
      refine ⟨htrust, ?_, l.text, ?_, ?_⟩
      · simp [Side.act, ht.1, Side.hear, ht.2, Side.message, htrust]
      · rw [if_pos ht]
      · rw [if_pos ht]
    · exact absurd rfl hne
  | _ => exact absurd rfl hne

variable {C : Sodium} (K : Keyring C)

/-- The plaintexts that `send` of one party has put on the wire for the other,
oldest first. -/
def sentTexts (X : Party) : History Engines Move → List Bytes
  | [] => []
  | (es, (Y, env, .send r text)) :: h =>
    sentTexts X h ++
      if Y = X ∧ r = K.key X.other ∧ ((es Y).send C env r text).2 then [text] else []
  | _ :: h => sentTexts X h

variable {K}

theorem send_true {env : Env} {e : Engine} {r text : Bytes} (h : (e.send C env r text).2 = true) :
    (e.opened C r).isSome ∧ e.trustOf r = some .accepted := by
  unfold Engine.send at h
  by_cases ht : e.trustOf r = some .accepted
  · simp only [ht, ne_eq, not_true_eq_false, ↓reduceIte] at h
    cases hs : e.ensureSession C r with
    | none => simp [hs] at h
    | some p => exact ⟨by simp [(Engine.ensureSession_eq_some hs).1], ht⟩
  · simp [ht] at h

theorem told_views (X : Party) (h : History Engines Move) :
    told X (views K h) = sentTexts K X h := by
  induction h with
  | nil => rfl
  | cons m h ih =>
    obtain ⟨es, Y, env, c⟩ := m
    change told X ((view K es, (Y, act C env (es Y) (K.key Y.other) c)) :: views K h) = _
    rw [told_cons, ih]
    by_cases hsend : ∃ r text, c = .send r text
    · obtain ⟨r, text, rfl⟩ := hsend
      simp only [sentTexts]
      by_cases hY : Y = X
      · subst hY
        by_cases hr : r = K.key Y.other
        · subst hr
          cases hb : ((es Y).send C env (K.key Y.other) text).2 with
          | true =>
            obtain ⟨ho, ht⟩ := send_true hb
            simp [act, ho, ht, Engine.call, hb]
          | false =>
            by_cases hc : ((es Y).opened C (K.key Y.other)).isSome ∧
                (es Y).trustOf (K.key Y.other) = some .accepted
            · simp [act, hc, Engine.call, hb]
            · simp [act, hc]
        · simp [act, hr]
      · simp [hY]
    · have hs : sentTexts K X ((es, (Y, env, c)) :: h) = sentTexts K X h := by
        cases c with
        | send r text => exact absurd ⟨r, text, rfl⟩ hsend
        | _ => rfl
      rw [hs]
      cases ha : act C env (es Y) (K.key Y.other) c with
      | tell text leaves =>
        have hc := act_call (C := C) env (es Y) (K.key Y.other) c
        rw [ha] at hc
        exact absurd ⟨_, _, hc.1⟩ hsend
      | _ => simp

/-- Whatever the network does, one party records and hands over, in the order of
sending and without repetition, only what the other party's `send` has put on
the wire for it, and records it only while the other is an accepted contact. -/
theorem delivered_in_order {es₀ es : Engines} {h : History Engines Move}
    (hstart : ∀ Y, Started C (K.identity Y) (es₀ Y))
    (run : Run (Engines.step C) (fun _ es m => Keeping m ∧ Genuine K es m ∧ Unwrapped K es m)
      es₀ h es) (X : Party) :
    (∃ recorded handed,
      received (es X.other).contacts.messages (K.key X) =
        received (es₀ X.other).contacts.messages (K.key X) ++ recorded ∧
      handedOver (es X.other).messageHandler.calls (K.key X) = handed ∧
      handed.Sublist recorded ∧ recorded.Sublist (sentTexts K X h)) ∧
    ∀ fs m, (fs, m) ∈ h →
      received (fs.step C m X.other).contacts.messages (K.key X) ≠
        received (fs X.other).contacts.messages (K.key X) →
      (fs X.other).trustOf (K.key X) = some .accepted ∧
      (fs.step C m X.other).trustOf (K.key X) = some .accepted ∧
      ∃ text, received (fs.step C m X.other).contacts.messages (K.key X) =
          received (fs X.other).contacts.messages (K.key X) ++ [text] ∧
        handedOver (fs.step C m X.other).messageHandler.calls (K.key X) =
          handedOver (fs X.other).messageHandler.calls (K.key X) ++
            if (fs X.other).messageHandler.installed then [text] else [] := by
  have hother : K.key X.other.other = K.key X := by rw [Party.other_other]
  constructor
  · have hview := run_view (fun _ p m => (p m.1).counter ≤ ((p m.1).act m.2).counter)
      hstart (fun _ _ _ hok => ⟨hok.1, hok.2.1⟩)
      (fun _ _ _ before hok => hok.2.2.counter (ready_run hstart before) hok.1) run
    have hsides : ∀ Y, (view K es₀ Y).Starting := fun Y => side_started (hstart Y) _
    have ledger := ledger_run (X := X) hsides hview
    obtain ⟨got, hsub, hinc, -, hinbox, handed, hhanded, hle⟩ := ledger.heard
    have hall : (messages (view K es X)).Pairwise fun l l' => l.counter < l'.counter :=
      ledger.increasing.filter _
    have hsublist := sublist_of_increasing (fun l : Letter => l.counter.toNat) hinc hall hsub
    refine ⟨got.map (·.text), handed, ?_, ?_, hle, ?_⟩
    · simpa only [view, side, hother] using hinbox
    · rw [(hsides X.other).handed, List.nil_append] at hhanded
      simpa only [view, side, hother] using hhanded
    · rw [← told_views, ← ledger.told]
      exact hsublist.map _
  · intro fs m hm hne
    obtain ⟨newer, older, rfl⟩ := List.mem_iff_append.mp hm
    obtain ⟨before, hok⟩ := run.cut
    have hstep := congrFun (view_step (ready_run hstart before) hok.1) X.other
    have hcase : m.1 = X.other := by
      by_contra hmX
      apply hne
      rw [Engines.step, Function.update_of_ne (Ne.symm hmX)]
    have hact : (fs.step C m |> view K) X.other = (view K fs X.other).act (m.view K fs).2 := by
      rw [hstep, Pair.step, ← hcase]
      exact Function.update_self ..
    have hinbox : ((view K fs X.other).act (m.view K fs).2).inbox ≠ (view K fs X.other).inbox := by
      rw [← hact]
      simpa only [view, side, hother] using hne
    have hres := inbox_act hinbox
    rw [← hact] at hres
    simpa only [view, side, hother] using hres

def lossy : List (Party × Engine.Call) :=
  [(.A, .addPeer (twoParties.key .B) address),
   (.B, .addPeer (twoParties.key .A) address),
   (.B, .onMessage),
   (.A, .send (twoParties.key .B) [7]),
   (.A, .send (twoParties.key .B) [8]),
   (.B, .poll (some (box .A 1 .message [8]))),
   (.B, .poll (some (box .A 1 .message [8])))]

theorem delivered_in_order_lossy :
    sentTexts twoParties .A (scene lossy).1 = [[7], [8]] ∧
      received ((scene lossy).2 .B).contacts.messages (twoParties.key .A) = [[8]] ∧
      ∃ recorded handed,
        received ((scene lossy).2 .B).contacts.messages (twoParties.key .A) =
          received (newEngines .B).contacts.messages (twoParties.key .A) ++ recorded ∧
        handedOver ((scene lossy).2 .B).messageHandler.calls (twoParties.key .A) = handed ∧
        handed.Sublist recorded ∧ recorded.Sublist (sentTexts twoParties .A (scene lossy).1) := by
  have run := scene_run (fun _ es m => Keeping m ∧ Genuine twoParties es m ∧
    Unwrapped twoParties es m) lossy (by decide +kernel)
  have h := (delivered_in_order newEngines_started (run.mono fun _ _ _ hm => hm.1) .A).1
  simp only [Party.other] at h
  exact ⟨by decide +kernel, by decide +kernel, h⟩

end OpenMesh.Messaging.Integrity
