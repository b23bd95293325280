import UrlTraveler.Transfer.Effects

/-! What the client is told, in every interleaving of its calls with the worker.

    A task that leaves the queue was cancelled or has told its end, and a callback of a task that was
    cancelled, swept by `clear` or has told its end does not come. Three invariants carry this:

        Slots     where the tasks are
        Sweeps    which tasks `clear` and `stop` have seen to
        Books     the queue is what the history says -/

namespace UrlTraveler.Transfer
open Runs

/-- After the event the task makes no callbacks. -/
def Event.silences : Event → ℕ → Prop
  | .cancelled _ id', id => id' = id
  | .cleared count, id => id < count
  | .stopped, _ => True
  | .called h _ t, id => h.final = true ∧ t.id = id
  | _, _ => False

/-- What may happen next. -/
def Event.allowed (pre : List Event) : Event → Prop
  | .added pos id => (∀ pos', .added pos' id ∉ pre) ∧ ∀ id', .added pos id' ∈ pre → .removed pos id' ∈ pre
  | .cancelled pos id => .added pos id ∈ pre ∧ .removed pos id ∉ pre
  | .called _ pos t => .added pos t.id ∈ pre ∧ ∀ e ∈ pre, ¬ e.silences t.id
  | .removed pos id => .added pos id ∈ pre ∧ .removed pos id ∉ pre ∧
      (.cancelled pos id ∈ pre ∨ ∃ h t, .called h pos t ∈ pre ∧ h.final = true ∧ t.id = id)
  | _ => True

variable {s s' : State}

/-! ### Slots -/

structure Slots (s : State) : Prop where
  curPos : s.curPos < maxTaskQueSize
  maxPos : s.maxPos < maxTaskQueSize
  taken : ∀ i p, s.tag i = some p → i ≤ s.maxPos

theorem Slots.start (n : ℕ) : Slots (start n) := ⟨show 0 < maxTaskQueSize by decide, show 0 < maxTaskQueSize by decide, fun _ _ h => nomatch h⟩

theorem Slots.lt (hs : Slots s) {i : ℕ} {p : ℕ × Bool} (h : s.tag i = some p) : i < maxTaskQueSize :=
  (hs.taken i p h).trans_lt hs.maxPos

theorem Slots.same (hs : Slots s) (h : Same s s') : Slots s' :=
  ⟨h.curPos ▸ hs.curPos, h.maxPos ▸ hs.maxPos, fun i p hi => h.maxPos ▸ hs.taken i p (h.tag ▸ hi)⟩

theorem Slots.put (hs : Slots s) {i : ℕ} (t : Option TTask) (hi : t.isSome → i ≤ s.maxPos) :
    Slots (s.put i t) := by
  refine ⟨hs.curPos, hs.maxPos, fun j p hj => ?_⟩
  rw [State.tag_put] at hj
  rcases eq_or_ne j i with rfl | hne
  · rw [Function.update_self] at hj
    exact hi (by cases t <;> simp_all)
  · rw [Function.update_of_ne hne] at hj
    exact hs.taken j p hj

theorem Slots.effect (hs : Slots s) (h : Effect s s') : Slots s' := by
  rcases h with ⟨hsame, -, -, -⟩ | ⟨h, i, t, hsame, -, -, -, -⟩ | ⟨i, id, del, hsame, -, -, -, -⟩
  · exact hs.same hsame
  · exact Slots.same (s := s.record (.called h i t)) ⟨hs.curPos, hs.maxPos, hs.taken⟩ hsame
  · obtain ⟨hc, hm, ht⟩ := hs.put (i := i) none (fun h => nomatch h)
    exact Slots.same (s := (s.put i none).record (.removed i id)) ⟨hc, hm, ht⟩ hsame

theorem Slots.call (hs : Slots s) (h : Call s s') : Slots s' := by
  rcases h with rfl | ⟨i, o, now, curPos, hi, -, -, -, hcur, rfl⟩ | ⟨i, t, client, -, ht, -, rfl⟩ |
    ⟨i, b, -, -, rfl⟩ | ⟨b, -, -, rfl⟩ | ⟨i, -, -, rfl⟩ | ⟨i, -, -, rfl⟩
  · exact hs
  · have hgrown : Slots { s with maxPos := max s.maxPos i } :=
      ⟨hs.curPos, max_lt hs.maxPos hi, fun j p hj => (hs.taken j p hj).trans (le_max_left ..)⟩
    exact ⟨hcur, hgrown.maxPos, (hgrown.put (some (.create s.count o now)) fun _ => le_max_right ..).taken⟩
  · obtain ⟨hc, hm, ht⟩ := hs.put (some { t with del := true })
      fun _ => hs.taken i _ (State.tag_of_taskQue ht)
    exact ⟨hc, hm, ht⟩
  all_goals exact ⟨hs.curPos, hs.maxPos, hs.taken⟩

/-! ### Sweeps -/

structure Sweeps (s : State) : Prop where
  started : s.mgrStarted = !s.stop
  cleaning : s.pc.cleaning → s.stop = true
  gone : s.stop = true → ∀ i id d, s.tag i = some (id, d) → d = true
  swept : ∀ n b, s.client = .clearing n b → ∀ i < n, ∀ id d, s.tag i = some (id, d) → d = true

theorem Sweeps.start (n : ℕ) : Sweeps (start n) :=
  ⟨rfl, False.elim, fun h => absurd h Bool.false_ne_true, fun _ _ h => nomatch h⟩

/-- Tasks that were deleted stay so; a task may be removed. -/
theorem Sweeps.mono (hs : Sweeps s) (hstop : s'.stop = s.stop) (hclient : s'.client = s.client)
    (hmgr : s'.mgrStarted = s.mgrStarted) (hpc : s'.pc.cleaning → s.stop = true ∨ s.pc.cleaning)
    (htag : ∀ i p, s'.tag i = some p → s.tag i = some p) : Sweeps s' where
  started := by rw [hmgr, hstop, hs.started]
  cleaning h := hstop ▸ (hpc h).elim id hs.cleaning
  gone h i id d hi := hs.gone (hstop ▸ h) i id d (htag i _ hi)
  swept n b h i hin id d hi := hs.swept n b (hclient ▸ h) i hin id d (htag i _ hi)

/-- When `clear` has come to the end, every task is deleted. -/
theorem Sweeps.all (hs : Sweeps s) (hslots : Slots s) {n : ℕ} {b : Bool} (hclient : s.client = .clearing n b)
    (hn : maxTaskQueSize ≤ n) (i id : ℕ) (d : Bool) (hi : s.tag i = some (id, d)) : d = true :=
  hs.swept n b hclient i ((hslots.lt hi).trans_le hn) id d hi

theorem Sweeps.effect (hs : Sweeps s) (h : Effect s s') : Sweeps s' := by
  rcases h with ⟨hsame, -, -, hpc⟩ | ⟨h, i, t, hsame, -, -, -, hpc⟩ | ⟨i, id, del, hsame, -, -, -, hpc⟩
  · exact hs.mono hsame.stop hsame.client hsame.mgrStarted hpc fun i p hi => hsame.tag ▸ hi
  · exact hs.mono hsame.stop hsame.client hsame.mgrStarted (fun h => absurd h hpc) fun j p hj => by
      rw [hsame.tag] at hj
      exact hj
  · refine hs.mono hsame.stop hsame.client hsame.mgrStarted (fun h => .inr (hpc h)) fun j p hj => ?_
    rw [hsame.tag] at hj
    change (s.put i none).tag j = some p at hj
    rw [State.tag_put] at hj
    rcases eq_or_ne j i with rfl | hne
    · rw [Function.update_self] at hj
      cases hj
    · rwa [Function.update_of_ne hne] at hj

theorem Sweeps.call (hs : Sweeps s) (hslots : Slots s) (h : Call s s') : Sweeps s' := by
  rcases h with rfl | ⟨i, o, now, curPos, -, -, hout, hmgr, -, rfl⟩ | ⟨i, t, client, -, ht, hclient, rfl⟩ |
    ⟨i, b, hclient, ht, rfl⟩ | ⟨b, hout, hmgr, rfl⟩ | ⟨i, -, -, rfl⟩ | ⟨i, hclient, hi, rfl⟩
  · exact hs
  · have hrun : s.stop = false := by
      have := hs.started
      rw [hmgr] at this
      exact (Bool.not_eq_true' _).mp this.symm
    exact ⟨hs.started, hs.cleaning, fun h => absurd (hrun.symm.trans h) Bool.false_ne_true,
      fun n b h => absurd (hout.symm.trans h) Client.noConfusion⟩
  · have htag : ∀ j id d, (s.put i (some { t with del := true })).tag j = some (id, d) →
        d = true ∨ j ≠ i ∧ s.tag j = some (id, d) := by
      intro j id d hj
      rw [State.tag_put] at hj
      rcases eq_or_ne j i with rfl | hne
      · rw [Function.update_self] at hj
        cases hj
        exact .inl rfl
      · rw [Function.update_of_ne hne] at hj
        exact .inr ⟨hne, hj⟩
    refine ⟨hs.started, hs.cleaning, fun h j id d hj => ?_, fun n b h j hjn id d hj => ?_⟩
    · rcases htag j id d hj with hd | ⟨-, hold⟩
      · exact hd
      · exact hs.gone h j id d hold
    · rcases htag j id d hj with hd | ⟨hne, hold⟩
      · exact hd
      · rcases hclient with rfl | ⟨b', hclient, rfl⟩
        · exact hs.swept n b h j hjn id d hold
        · cases h
          exact hs.swept i b hclient j (by omega) id d hold
  · refine ⟨hs.started, hs.cleaning, hs.gone, fun n b' h j hjn id d hj => ?_⟩
    cases h
    rcases eq_or_ne j i with rfl | hne
    · change s.tag j = _ at hj
      rw [State.tag, ht] at hj
      cases hj
    · exact hs.swept i b hclient j (by omega) id d hj
  · exact ⟨hs.started, hs.cleaning, hs.gone, fun n b h => by cases h; exact fun i hi => absurd hi (Nat.not_lt_zero i)⟩
  · exact ⟨hs.started, hs.cleaning, hs.gone, fun n b h => Client.noConfusion h⟩
  · exact ⟨rfl, fun _ => rfl, fun _ => hs.all hslots hclient hi, fun n b h => Client.noConfusion h⟩

/-! ### Books -/

theorem Pc.clearing_unique {pc : Pc} {i j : ℕ} (hi : pc.clearing i) (hj : pc.clearing j) : i = j := by
  cases pc <;> first | exact hi.elim | exact (show i = _ from hi).trans (show j = _ from hj).symm

theorem Pc.not_clearing {pc : Pc} (h : pc.cleaning) (i : ℕ) : ¬ pc.clearing i := by
  cases pc <;> first | exact h.elim | exact id

structure Books (s : State) : Prop where
  ordered : Ordered Event.allowed s.history
  taken : ∀ i id, (∃ d, s.tag i = some (id, d)) ↔ .added i id ∈ s.history ∧ .removed i id ∉ s.history
  fresh : ∀ i id, .added i id ∈ s.history ∨ .removed i id ∈ s.history → id < s.count
  once : ∀ i j id, .added i id ∈ s.history → .added j id ∈ s.history → i = j
  cancelled : ∀ i id, s.tag i = some (id, true) → .cancelled i id ∈ s.history
  bound : ∀ e ∈ s.history, ∀ id, e.silences id → id < s.count ∨ s.stop = true
  live : ∀ i id, s.tag i = some (id, false) → ∀ e ∈ s.history, e.silences id → s.pc.clearing i
  clearing : ∀ i, s.pc.clearing i → ∃ id d, s.tag i = some (id, d) ∧
    (d = true ∨ ∃ h t, .called h i t ∈ s.history ∧ h.final = true ∧ t.id = id)

namespace Books

theorem start (n : ℕ) : Books (Transfer.start n) where
  ordered := Ordered.nil
  taken _ _ := ⟨fun ⟨_, h⟩ => (nomatch h), fun h => (nomatch h.1)⟩
  fresh _ _ h := h.elim (fun h => nomatch h) (fun h => nomatch h)
  once _ _ _ h := nomatch h
  cancelled _ _ h := nomatch h
  bound _ h := nomatch h
  live _ _ h := nomatch h
  clearing _ h := h.elim

variable (hb : Books s)
include hb

theorem added {i id : ℕ} {d : Bool} (h : s.tag i = some (id, d)) : .added i id ∈ s.history :=
  ((hb.taken i id).mp ⟨d, h⟩).1

/-- Two slots never hold tasks of one id. -/
theorem slot {i j id : ℕ} {d d' : Bool} (hi : s.tag i = some (id, d)) (hj : s.tag j = some (id, d')) : i = j :=
  hb.once i j id (hb.added hi) (hb.added hj)

theorem lt {i id : ℕ} {d : Bool} (h : s.tag i = some (id, d)) : id < s.count :=
  hb.fresh i id (.inl (hb.added h))

theorem quiet (hsame : Same s s') (hclear : ∀ i, s'.pc.clearing i → ∃ id, s.tag i = some (id, true))
    (hdone : ∀ i, s.pc.clearing i → s.tag i = none) : Books s' where
  ordered := hsame.history ▸ hb.ordered
  taken i id := by rw [hsame.tag, hsame.history]; exact hb.taken i id
  fresh i id := by rw [hsame.history, hsame.count]; exact hb.fresh i id
  once i j id := by rw [hsame.history]; exact hb.once i j id
  cancelled i id := by rw [hsame.tag, hsame.history]; exact hb.cancelled i id
  bound e he id := by rw [hsame.count, hsame.stop]; exact hb.bound e (hsame.history ▸ he) id
  live i id hi e he hsil := by
    rw [hsame.tag] at hi
    have := hdone i (hb.live i id hi e (hsame.history ▸ he) hsil)
    rw [hi] at this
    cases this
  clearing i hi := by
    obtain ⟨id, htag⟩ := hclear i hi
    exact ⟨id, true, hsame.tag ▸ htag, .inl rfl⟩

theorem called {h : Handler} {i : ℕ} {t : TTask} (hsame : Same (s.record (.called h i t)) s')
    (hlive : s.tag i = some (t.id, false)) (hnone : ∀ j, ¬ s.pc.clearing j)
    (hclear : ∀ j, s'.pc.clearing j ↔ h.final = true ∧ j = i) : Books s' := by
  have htag : s'.tag = s.tag := hsame.tag
  have hhist : s'.history = s.history ++ [.called h i t] := hsame.history
  have hmem : ∀ e, e ∈ s'.history ↔ e ∈ s.history ∨ e = .called h i t := by simp [hhist]
  refine ⟨?_, ?_, ?_, ?_, ?_, ?_, ?_, ?_⟩
  · rw [hhist]
    exact hb.ordered.snoc ⟨hb.added hlive, fun e he hsil => hnone i (hb.live i _ hlive e he hsil)⟩
  · intro j id
    rw [htag, hmem, hmem, hb.taken j id]
    simp
  · intro j id
    rw [hmem, hmem, show s'.count = s.count from hsame.count]
    simpa using hb.fresh j id
  · intro j k id
    rw [hmem, hmem]
    simpa using hb.once j k id
  · intro j id hj
    rw [hmem]
    exact .inl (hb.cancelled j id (htag ▸ hj))
  · intro e he id hsil
    rw [show s'.count = s.count from hsame.count, show s'.stop = s.stop from hsame.stop]
    rcases (hmem e).mp he with he | rfl
    · exact hb.bound e he id hsil
    · exact .inl (hsil.2 ▸ hb.lt hlive)
  · intro j id hj e he hsil
    rw [htag] at hj
    rcases (hmem e).mp he with he | rfl
    · exact absurd (hb.live j id hj e he hsil) (hnone j)
    · obtain ⟨hfinal, rfl⟩ := hsil
      exact (hclear j).mpr ⟨hfinal, hb.slot hj hlive⟩
  · intro j hj
    obtain ⟨hfinal, rfl⟩ := (hclear j).mp hj
    exact ⟨t.id, false, htag ▸ hlive, .inr ⟨h, t, (hmem _).mpr (.inr rfl), hfinal, rfl⟩⟩

theorem removed (hs : Sweeps s) {i id : ℕ} {d : Bool} (hsame : Same ((s.put i none).record (.removed i id)) s')
    (hi : s.tag i = some (id, d)) (hpc : s.pc.clearing i ∨ s.pc.cleaning) (hnone : ∀ j, ¬ s'.pc.clearing j) :
    Books s' := by
  have htag : s'.tag = Function.update s.tag i none := hsame.tag.trans (State.tag_put ..)
  have hhist : s'.history = s.history ++ [.removed i id] := hsame.history
  have hmem : ∀ e, e ∈ s'.history ↔ e ∈ s.history ∨ e = .removed i id := by simp [hhist]
  have hother : ∀ j, s'.tag j ≠ none → j ≠ i ∧ s'.tag j = s.tag j := by
    intro j hj
    rcases eq_or_ne j i with rfl | hne
    · rw [htag, Function.update_self] at hj
      exact absurd rfl hj
    · exact ⟨hne, by rw [htag, Function.update_of_ne hne]⟩
  have hold : ∀ {j id' d'}, s'.tag j = some (id', d') → j ≠ i ∧ s.tag j = some (id', d') := by
    intro j id' d' hj
    obtain ⟨hne, heq⟩ := hother j (by rw [hj]; exact Option.some_ne_none _)
    exact ⟨hne, heq ▸ hj⟩
  have hjust : .cancelled i id ∈ s.history ∨
      ∃ h t, .called h i t ∈ s.history ∧ h.final = true ∧ t.id = id := by
    rcases hpc with hpc | hpc
    · obtain ⟨id', d', hi', rfl | hfinal⟩ := hb.clearing i hpc <;> rw [hi] at hi' <;> cases hi'
      · exact .inl (hb.cancelled i id hi)
      · exact .inr hfinal
    · rw [hs.gone (hs.cleaning hpc) i id d hi] at hi
      exact .inl (hb.cancelled i id hi)
  refine ⟨?_, ?_, ?_, ?_, ?_, ?_, ?_, ?_⟩
  · rw [hhist]
    obtain ⟨hadd, hrem⟩ := (hb.taken i id).mp ⟨d, hi⟩
    exact hb.ordered.snoc ⟨hadd, hrem, hjust⟩
  · intro j id'
    rw [hmem, hmem]
    constructor
    · rintro ⟨d', hj⟩
      obtain ⟨hne, hj⟩ := hold hj
      obtain ⟨hadd, hrem⟩ := (hb.taken j id').mp ⟨d', hj⟩
      exact ⟨.inl hadd, not_or_intro hrem fun h => hne (by injection h)⟩
    · rintro ⟨hadd, hrem⟩
      obtain ⟨hrem, hdiff⟩ := not_or.mp hrem
      obtain ⟨d', hj⟩ := (hb.taken j id').mpr ⟨hadd.resolve_right Event.noConfusion, hrem⟩
      refine ⟨d', ?_⟩
      rw [htag, Function.update_of_ne, hj]
      rintro rfl
      rw [hi] at hj
      cases hj
      exact hdiff rfl
  · intro j id'
    rw [hmem, hmem, show s'.count = s.count from hsame.count]
    rintro ((h | h) | (h | h))
    · exact hb.fresh j id' (.inl h)
    · cases h
    · exact hb.fresh j id' (.inr h)
    · cases h
      exact hb.lt hi
  · intro j k id'
    rw [hmem, hmem]
    simpa using hb.once j k id'
  · intro j id' hj
    exact (hmem _).mpr (.inl (hb.cancelled j id' (hold hj).2))
  · intro e he id' hsil
    rw [show s'.count = s.count from hsame.count, show s'.stop = s.stop from hsame.stop]
    rcases (hmem e).mp he with he | rfl
    · exact hb.bound e he id' hsil
    · exact hsil.elim
  · intro j id' hj e he hsil
    obtain ⟨hne, hj⟩ := hold hj
    rcases (hmem e).mp he with he | rfl
    · have hclear := hb.live j id' hj e he hsil
      rcases hpc with hpc | hpc
      · exact absurd (Pc.clearing_unique hclear hpc) hne
      · exact absurd hclear (Pc.not_clearing hpc j)
    · exact hsil.elim
  · exact fun j hj => absurd hj (hnone j)

theorem appended (hs : Sweeps s) {i curPos maxPos : ℕ} (o : Options) (now : ℕ) (hfree : s.taskQue i = none)
    (hmgr : s.mgrStarted = true) :
    Books { (s.put i (some (.create s.count o now))).record (.added i s.count) with curPos, maxPos, count := s.count + 1 } := by
  have hnotag : s.tag i = none := by rw [State.tag, hfree, Option.map_none]
  have hrun : s.stop = false := by
    have := hs.started
    rw [hmgr] at this
    exact (Bool.not_eq_true' _).mp this.symm
  have hnew : ∀ j, .added j s.count ∉ s.history ∧ .removed j s.count ∉ s.history := fun j =>
    ⟨fun h => (hb.fresh j _ (.inl h)).false, fun h => (hb.fresh j _ (.inr h)).false⟩
  have hpast : ∀ id, .added i id ∈ s.history → .removed i id ∈ s.history := by
    intro id hadd
    by_contra hrem
    obtain ⟨d, hi⟩ := (hb.taken i id).mpr ⟨hadd, hrem⟩
    rw [hnotag] at hi
    cases hi
  have htag : ({ (s.put i (some (.create s.count o now))).record (.added i s.count) with
      curPos, maxPos, count := s.count + 1 } : State).tag = Function.update s.tag i (some (s.count, false)) :=
    State.tag_put ..
  have hmem : ∀ e : Event, e ∈ s.history ++ [.added i s.count] ↔ e ∈ s.history ∨ e = .added i s.count := by simp
  refine ⟨?_, ?_, ?_, ?_, ?_, ?_, ?_, ?_⟩
  · exact hb.ordered.snoc ⟨fun j => (hnew j).1, hpast⟩
  · intro j id
    rw [htag]
    change _ ↔ _ ∈ s.history ++ [_] ∧ _ ∉ s.history ++ [_]
    rw [hmem, hmem]
    rcases eq_or_ne j i with rfl | hne
    · rw [Function.update_self]
      constructor
      · rintro ⟨d, hd⟩
        cases hd
        exact ⟨.inr rfl, not_or_intro (hnew j).2 Event.noConfusion⟩
      · rintro ⟨hadd | hadd, hrem⟩
        · exact absurd (.inl (hpast id hadd)) hrem
        · cases hadd
          exact ⟨false, rfl⟩
    · rw [Function.update_of_ne hne, hb.taken j id]
      simp [hne]
  · intro j id h
    change id < s.count + 1
    change _ ∈ s.history ++ [_] ∨ _ ∈ s.history ++ [_] at h
    rw [hmem, hmem] at h
    rcases h with (h | h) | (h | h)
    · exact (hb.fresh j id (.inl h)).trans (Nat.lt_succ_self _)
    · cases h
      exact Nat.lt_succ_self _
    · exact (hb.fresh j id (.inr h)).trans (Nat.lt_succ_self _)
    · cases h
  · intro j k id hj hk
    rcases (hmem _).mp hj with hj | hj <;> rcases (hmem _).mp hk with hk | hk
    · exact hb.once j k id hj hk
    · cases hk
      exact absurd hj (hnew j).1
    · cases hj
      exact absurd hk (hnew k).1
    · cases hj
      cases hk
      rfl
  · intro j id hj
    rw [htag] at hj
    rcases eq_or_ne j i with rfl | hne
    · rw [Function.update_self] at hj
      cases hj
    · rw [Function.update_of_ne hne] at hj
      exact (hmem _).mpr (.inl (hb.cancelled j id hj))
  · intro e he id hsil
    rcases (hmem _).mp he with he | rfl
    · exact (hb.bound e he id hsil).imp_left fun h => h.trans (Nat.lt_succ_self _)
    · exact hsil.elim
  · intro j id hj e he hsil
    rw [htag] at hj
    rcases (hmem _).mp he with hold | rfl
    · rcases eq_or_ne j i with rfl | hne
      · rw [Function.update_self] at hj
        cases hj
        rcases hb.bound e hold s.count hsil with h | h
        · exact (h.false).elim
        · exact absurd (hrun.symm.trans h) Bool.false_ne_true
      · rw [Function.update_of_ne hne] at hj
        exact hb.live j id hj e hold hsil
    · exact hsil.elim
  · intro j hj
    obtain ⟨id, d, hi, hd⟩ := hb.clearing j hj
    refine ⟨id, d, ?_, ?_⟩
    · rw [htag, Function.update_of_ne, hi]
      rintro rfl
      rw [hnotag] at hi
      cases hi
    · rcases hd with hd | ⟨h, t, hcalled, hfinal⟩
      · exact .inl hd
      · exact .inr ⟨h, t, (hmem _).mpr (.inl hcalled), hfinal⟩

theorem marked {i : ℕ} {t : TTask} (client : Client) (ht : s.taskQue i = some t) :
    Books { (s.put i (some { t with del := true })).record (.cancelled i t.id) with client } := by
  have hi : s.tag i = some (t.id, t.del) := State.tag_of_taskQue ht
  have htag : ({ (s.put i (some { t with del := true })).record (.cancelled i t.id) with client } : State).tag =
      Function.update s.tag i (some (t.id, true)) := State.tag_put ..
  have hmem : ∀ e : Event, e ∈ s.history ++ [.cancelled i t.id] ↔ e ∈ s.history ∨ e = .cancelled i t.id := by simp
  refine ⟨?_, ?_, ?_, ?_, ?_, ?_, ?_, ?_⟩
  · exact hb.ordered.snoc ((hb.taken i t.id).mp ⟨_, hi⟩)
  · intro j id
    rw [htag]
    change _ ↔ _ ∈ s.history ++ [_] ∧ _ ∉ s.history ++ [_]
    rw [hmem, hmem]
    have hiff : (∃ d, Function.update s.tag i (some (t.id, true)) j = some (id, d)) ↔ ∃ d, s.tag j = some (id, d) := by
      rcases eq_or_ne j i with rfl | hne
      · rw [Function.update_self, hi]
        simp
      · rw [Function.update_of_ne hne]
    rw [hiff, hb.taken j id]
    simp
  · intro j id h
    change _ ∈ s.history ++ [_] ∨ _ ∈ s.history ++ [_] at h
    rw [hmem, hmem] at h
    exact hb.fresh j id (by simpa using h)
  · intro j k id hj hk
    exact hb.once j k id (((hmem _).mp hj).resolve_right Event.noConfusion)
      (((hmem _).mp hk).resolve_right Event.noConfusion)
  · intro j id hj
    rw [htag] at hj
    rcases eq_or_ne j i with rfl | hne
    · rw [Function.update_self] at hj
      cases hj
      exact (hmem _).mpr (.inr rfl)
    · rw [Function.update_of_ne hne] at hj
      exact (hmem _).mpr (.inl (hb.cancelled j id hj))
  · intro e he id hsil
    rcases (hmem _).mp he with he | rfl
    · exact hb.bound e he id hsil
    · cases show t.id = id from hsil
      exact .inl (hb.lt hi)
  · intro j id hj e he hsil
    rw [htag] at hj
    rcases eq_or_ne j i with rfl | hne
    · rw [Function.update_self] at hj
      cases hj
    · rw [Function.update_of_ne hne] at hj
      rcases (hmem _).mp he with he | rfl
      · exact hb.live j id hj e he hsil
      · cases show t.id = id from hsil
        exact absurd (hb.slot hj hi) hne
  · intro j hj
    obtain ⟨id, d, hj', hd⟩ := hb.clearing j hj
    have hd' : d = true ∨ ∃ h t', .called h j t' ∈ s.history ++ [.cancelled i t.id] ∧ h.final = true ∧ t'.id = id := by
      rcases hd with hd | ⟨h, t', hcalled, hfinal⟩
      · exact .inl hd
      · exact .inr ⟨h, t', (hmem _).mpr (.inl hcalled), hfinal⟩
    rcases eq_or_ne j i with rfl | hne
    · refine ⟨t.id, true, by rw [htag, Function.update_self], .inl rfl⟩
    · exact ⟨id, d, by rw [htag, Function.update_of_ne hne, hj'], hd'⟩

/-- The end of `clear` and `stop`: no task is left that is not deleted. -/
theorem told (hall : ∀ i id d, s.tag i = some (id, d) → d = true) {e : Event} {client : Client}
    {stop mgrStarted : Bool} (hstop : s.stop = true → stop = true)
    (he : e = .cleared s.count ∨ e = .stopped ∧ stop = true) :
    Books { s.record e with client, stop, mgrStarted } := by
  have hmem : ∀ x : Event, x ∈ s.history ++ [e] ↔ x ∈ s.history ∨ x = e := by simp
  have hadd : ∀ i id, Event.added i id ≠ e := by rintro i id rfl; simp at he
  have hrem : ∀ i id, Event.removed i id ≠ e := by rintro i id rfl; simp at he
  refine ⟨?_, ?_, ?_, ?_, ?_, ?_, ?_, ?_⟩
  · exact hb.ordered.snoc (by rcases he with rfl | ⟨rfl, -⟩ <;> trivial)
  · intro j id
    change _ ↔ _ ∈ s.history ++ [_] ∧ _ ∉ s.history ++ [_]
    rw [hmem, hmem, or_iff_left (hadd j id), or_iff_left (hrem j id)]
    exact hb.taken j id
  · intro j id h
    change _ ∈ s.history ++ [_] ∨ _ ∈ s.history ++ [_] at h
    rw [hmem, hmem, or_iff_left (hadd j id), or_iff_left (hrem j id)] at h
    exact hb.fresh j id h
  · intro j k id hj hk
    exact hb.once j k id (((hmem _).mp hj).resolve_right (hadd j id)) (((hmem _).mp hk).resolve_right (hadd k id))
  · exact fun j id hj => (hmem _).mpr (.inl (hb.cancelled j id hj))
  · intro x hx id hsil
    rcases (hmem _).mp hx with hx | rfl
    · exact (hb.bound x hx id hsil).imp_right hstop
    · rcases he with rfl | ⟨rfl, hstopped⟩
      · exact .inl hsil
      · exact .inr hstopped
  · exact fun j id hj => absurd (hall j id false hj) Bool.false_ne_true
  · intro j hj
    obtain ⟨id, d, hi, -⟩ := hb.clearing j hj
    exact ⟨id, d, hi, .inl (hall j id d hi)⟩

theorem effect (hs : Sweeps s) (h : Effect s s') : Books s' := by
  rcases h with ⟨hsame, hclear, hdone, -⟩ | ⟨h, i, t, hsame, hlive, hnone, hclear, -⟩ |
    ⟨i, id, d, hsame, hi, hpc, hnone, -⟩
  · exact hb.quiet hsame hclear hdone
  · exact hb.called hsame hlive hnone hclear
  · exact hb.removed hs hsame hi hpc hnone

theorem call (hslots : Slots s) (hs : Sweeps s) (h : Call s s') : Books s' := by
  rcases h with rfl | ⟨i, o, now, curPos, -, hfree, -, hmgr, -, rfl⟩ | ⟨i, t, client, -, ht, -, rfl⟩ |
    ⟨i, b, -, -, rfl⟩ | ⟨b, -, -, rfl⟩ | ⟨i, hclient, hi, rfl⟩ | ⟨i, hclient, hi, rfl⟩
  · exact hb
  · exact hb.appended hs o now hfree hmgr
  · exact hb.marked client ht
  · exact ⟨hb.1, hb.2, hb.3, hb.4, hb.5, hb.6, hb.7, hb.8⟩
  · exact ⟨hb.1, hb.2, hb.3, hb.4, hb.5, hb.6, hb.7, hb.8⟩
  · exact hb.told (hs.all hslots hclient hi) id (.inl rfl)
  · have hcleared : Books (({ s with client := .outside }).record (.cleared s.count)) :=
      hb.told (hs.all hslots hclient hi) id (.inl rfl)
    exact hcleared.told (hs.all hslots hclient hi) (fun _ => rfl) (.inr ⟨rfl, rfl⟩)

end Books

/-! ### Runs -/

/-- What a run keeps. -/
structure Kept (s : State) : Prop where
  slots : Slots s
  sweeps : Sweeps s
  books : Books s

theorem Kept.step {a : Act} (hk : Kept s) (h : step s a = some s') : Kept s' := by
  rcases step_cases hk.slots.curPos h with ⟨e, -, h⟩ | h
  · have heff := State.workerStep_effect e h
    exact ⟨hk.slots.effect heff, hk.sweeps.effect heff, hk.books.effect hk.sweeps heff⟩
  · exact ⟨hk.slots.call h, hk.sweeps.call hk.slots h, hk.books.call hk.slots hk.sweeps h⟩

theorem kept_states (n : ℕ) (as : List Act) : ∀ s ∈ states step (start n) as, Kept s :=
  invariant_always (fun _ _ _ hk h => hk.step h) as (start n) ⟨Slots.start n, Sweeps.start n, Books.start n⟩

/-- A callback names the slot of its task, and comes neither after `cancelTask`, `clear` or `stop` nor
    after the callback that tells the task's end. -/
def State.Silent (s : State) : Prop :=
  ∀ pre h pos t post, s.history = pre ++ .called h pos t :: post →
    .added pos t.id ∈ pre ∧ ∀ e ∈ pre, ¬ e.silences t.id

theorem callbacks_silent (n : ℕ) (as : List Act) : ∀ s ∈ states step (start n) as, s.Silent :=
  fun s hs _ _ _ _ _ hsplit => (kept_states n as s hs).books.ordered _ _ _ hsplit

/-- A task is in its slot until it is removed, no slot is given away before, and what is removed was
    cancelled or has told its end. -/
structure State.Accounted (s : State) : Prop where
  queued : ∀ pos id, .added pos id ∈ s.history → .removed pos id ∉ s.history →
    ∃ t, s.taskQue pos = some t ∧ t.id = id
  removed : ∀ pre pos id post, s.history = pre ++ .removed pos id :: post →
    .added pos id ∈ pre ∧ .removed pos id ∉ pre ∧
      (.cancelled pos id ∈ pre ∨ ∃ h t, .called h pos t ∈ pre ∧ h.final = true ∧ t.id = id)
  added : ∀ pre pos id post, s.history = pre ++ .added pos id :: post →
    ∀ id', .added pos id' ∈ pre → .removed pos id' ∈ pre

theorem transfers_accounted (n : ℕ) (as : List Act) : ∀ s ∈ states step (start n) as, s.Accounted := by
  intro s hs
  have hb := (kept_states n as s hs).books
  refine ⟨fun pos id hadd hrem => ?_, fun _ _ _ _ hsplit => hb.ordered _ _ _ hsplit,
    fun _ _ _ _ hsplit => (hb.ordered _ _ _ hsplit).2⟩
  obtain ⟨d, htag⟩ := (hb.taken pos id).mpr ⟨hadd, hrem⟩
  obtain ⟨t, ht, htid⟩ := Option.map_eq_some_iff.mp htag
  exact ⟨t, ht, congrArg Prod.fst htid⟩

/-- The worker with an eager network; `fd` is the next descriptor. -/
def work (fd n : ℕ) : List Act :=
  List.replicate n
    (.worker { connect := .ok, newfd := fd, readable := {7, 8}, head := .ok 10, recv := .bytes 3 })

/-- One transfer is cancelled while its body comes in, another one comes to its end. -/
def twoTransfers : List Act :=
  [.addTask {} 0] ++ work 7 7 ++ [.addTask { task_type := .head } 0] ++ work 8 17 ++ [.cancelTask 0] ++ work 8 12

theorem twoTransfers_runs : (twoTransfers.foldlM step (start 32)).isSome = true := by decide +kernel

theorem callbacks_silent_two :
    (Option.get _ twoTransfers_runs).Silent ∧ (Option.get _ twoTransfers_runs).history.length = 8 :=
  ⟨callbacks_silent 32 twoTransfers _ (mem_states_foldlM (Option.some_get twoTransfers_runs).symm), by decide +kernel⟩

theorem transfers_accounted_two : (Option.get _ twoTransfers_runs).Accounted :=
  transfers_accounted 32 twoTransfers _ (mem_states_foldlM (Option.some_get twoTransfers_runs).symm)

end UrlTraveler.Transfer
