import Mathlib

/-! Runs of a state machine whose steps may fail.

    A run is a list of actions; a step that fails ends it, and the states reached are those before:

        s ──a──▶ s' ──b──▶ s'' ──c──▶ (fails)        states = [s, s', s'']

    A condition on steps holds `Along` a run when every step that is taken meets it. The two rules
    say what a step lemma gives for whole runs: `invariant` when good steps keep a property, and
    `invariant_iff` when bad steps, in addition, break it. `foldlM_rule` is the same for a loop.

    Where a step that fails counts as bad the run `Meets` the condition only if that step does too,
    and `completes_iff` says which runs come to their end. -/

namespace UrlTraveler.Runs

variable {State Act : Type} (step : State → Act → Option State)

/-- The states of a run, the first one included. -/
def states : State → List Act → List State
  | s, [] => [s]
  | s, a :: as => s :: (step s a).elim [] fun s' => states s' as

/-- Every step the run takes meets the condition. -/
def Along (ok : State → Act → Prop) : State → List Act → Prop
  | _, [] => True
  | s, a :: as => ∀ s', step s a = some s' → ok s a ∧ Along ok s' as

/-- Every step of the run meets the condition, one that fails included. -/
def Meets (ok : State → Act → Prop) : State → List Act → Prop
  | _, [] => True
  | s, a :: as => ok s a ∧ ∀ s', step s a = some s' → Meets ok s' as

variable {step} {ok : State → Act → Prop} {I P : State → Prop}

theorem states_some {s s' : State} {a : Act} (h : step s a = some s') (as : List Act) :
    states step s (a :: as) = s :: states step s' as := by
  rw [states, h]
  rfl

theorem states_none {s : State} {a : Act} (h : step s a = none) (as : List Act) :
    states step s (a :: as) = [s] := by
  rw [states, h]
  rfl

theorem mem_states_self (s : State) : ∀ as, s ∈ states step s as
  | [] => List.mem_singleton_self s
  | _ :: _ => List.mem_cons_self

theorem along_cons {s s' : State} {a : Act} (h : step s a = some s') (as : List Act) :
    Along step ok s (a :: as) ↔ ok s a ∧ Along step ok s' as := by
  constructor
  · exact fun hal => hal s' h
  · intro hal t ht
    rw [h] at ht
    cases ht
    exact hal

/-- What holds in every state may be used at every step. -/
theorem Along.and {D : State → Prop} : ∀ {as : List Act} {s : State}, Along step ok s as →
    (∀ t ∈ states step s as, D t) → Along step (fun s a => ok s a ∧ D s) s as
  | [], _, _, _ => trivial
  | a :: as, s, hal, hD => by
    intro s' h
    rw [states_some h] at hD
    obtain ⟨hok, hal⟩ := hal s' h
    exact ⟨⟨hok, hD s List.mem_cons_self⟩, hal.and fun t ht => hD t (List.mem_cons_of_mem _ ht)⟩

theorem Along.mono {ok' : State → Act → Prop} (hle : ∀ s a, ok s a → ok' s a) :
    ∀ {as : List Act} {s : State}, Along step ok s as → Along step ok' s as
  | [], _, _ => trivial
  | _ :: _, _, hal => fun s' h => ⟨hle _ _ (hal s' h).1, (hal s' h).2.mono hle⟩

instance Along.decidable [∀ s a, Decidable (ok s a)] : ∀ s as, Decidable (Along step ok s as)
  | _, [] => .isTrue trivial
  | s, a :: as =>
    match h : step s a with
    | none => .isTrue fun s' h' => by rw [h] at h'; cases h'
    | some s' =>
      haveI := Along.decidable s' as
      decidable_of_iff (ok s a ∧ Along step ok s' as) (along_cons h as).symm

theorem meets_cons {s s' : State} {a : Act} (h : step s a = some s') (as : List Act) :
    Meets step ok s (a :: as) ↔ ok s a ∧ Meets step ok s' as := by
  rw [Meets, h]
  simp

instance Meets.decidable [∀ s a, Decidable (ok s a)] : ∀ s as, Decidable (Meets step ok s as)
  | _, [] => .isTrue trivial
  | s, a :: as =>
    match h : step s a with
    | none => decidable_of_iff (ok s a) (by rw [Meets, h]; simp)
    | some s' =>
      haveI := Meets.decidable s' as
      decidable_of_iff (ok s a ∧ Meets step ok s' as) (meets_cons h as).symm

theorem foldlM_cons_some {s s' : State} {a : Act} (h : step s a = some s') (as : List Act) :
    (a :: as).foldlM step s = as.foldlM step s' := by
  rw [List.foldlM_cons, h]
  rfl

theorem foldlM_append_some {s s' : State} {as : List Act} (h : as.foldlM step s = some s')
    (bs : List Act) : (as ++ bs).foldlM step s = bs.foldlM step s' := by
  rw [List.foldlM_append, h]
  rfl

/-- Where a run ends is one of its states. -/
theorem mem_states_foldlM : ∀ {as : List Act} {s t : State}, as.foldlM step s = some t →
    t ∈ states step s as
  | [], s, t, h => by
    cases h
    exact List.mem_singleton_self s
  | a :: as, s, t, h => by
    rw [List.foldlM_cons, Option.bind_eq_bind, Option.bind_eq_some_iff] at h
    obtain ⟨s', hs', h⟩ := h
    rw [states_some hs']
    exact List.mem_cons_of_mem _ (mem_states_foldlM h)

/-- Good steps keep `I`, so it holds along good runs. -/
theorem invariant (hstep : ∀ s a s', I s → ok s a → step s a = some s' → I s') :
    ∀ (as : List Act) (s : State), I s → Along step ok s as → ∀ t ∈ states step s as, I t
  | [], s, hs, _, t, ht => by
    rw [List.mem_singleton.mp ht]
    exact hs
  | a :: as, s, hs, hal, t, ht => by
    cases h : step s a with
    | none =>
      rw [states_none h, List.mem_singleton] at ht
      rw [ht]
      exact hs
    | some s' =>
      rw [states_some h] at ht
      rcases List.mem_cons.mp ht with rfl | ht
      · exact hs
      · exact invariant hstep as s' (hstep s a s' hs (hal s' h).1 h) (hal s' h).2 t ht

theorem along_of_forall (hok : ∀ s a, ok s a) : ∀ (as : List Act) (s : State), Along step ok s as
  | [], _ => trivial
  | a :: as, s => fun s' _ => ⟨hok s a, along_of_forall hok as s'⟩

/-- What every step keeps holds in every state of every run. -/
theorem invariant_always (hstep : ∀ s a s', I s → step s a = some s' → I s') (as : List Act)
    (s : State) (hs : I s) : ∀ t ∈ states step s as, I t :=
  invariant (fun s a s' hs _ h => hstep s a s' hs h) as s hs
    (along_of_forall (fun _ _ => trivial) as s)

/-- And when the first bad step breaks `P`, `P` holds along good runs only. -/
theorem invariant_iff (hI : ∀ s, I s → P s)
    (hstep : ∀ s a s', I s → ok s a → step s a = some s' → I s')
    (hbad : ∀ s a s', I s → ¬ ok s a → step s a = some s' → ¬ P s') :
    ∀ (as : List Act) (s : State), I s → ((∀ t ∈ states step s as, P t) ↔ Along step ok s as) := by
  intro as s hs
  refine ⟨fun hP => ?_, fun hal t ht => hI t (invariant hstep as s hs hal t ht)⟩
  induction as generalizing s with
  | nil => trivial
  | cons a as ih =>
    intro s' h
    rw [states_some h] at hP
    by_cases hok : ok s a
    · exact ⟨hok, ih s' (hstep s a s' hs hok h) fun t ht => hP t (List.mem_cons_of_mem _ ht)⟩
    · exact absurd (hP s' (List.mem_cons_of_mem _ (mem_states_self s' as))) (hbad s a s' hs hok h)

/-- When a step succeeds and gives `P` exactly when it is good, the good runs are those that come to
    their end with `P` in every state. -/
theorem completes_iff (hP : ∀ s, I s → P s)
    (hstep : ∀ s a, I s → ((∃ s', step s a = some s' ∧ P s') ↔ ok s a))
    (hkeep : ∀ s a s', I s → step s a = some s' → P s' → I s') :
    ∀ (as : List Act) (s : State), I s →
      (((as.foldlM step s).isSome ∧ ∀ t ∈ states step s as, P t) ↔ Meets step ok s as) := by
  intro as
  induction as with
  | nil => exact fun s hs => iff_of_true ⟨rfl, by simpa [states] using hP s hs⟩ trivial
  | cons a as ih =>
    intro s hs
    cases h : step s a with
    | none =>
      have hend : (a :: as).foldlM step s = none := by
        rw [List.foldlM_cons, h]
        rfl
      refine iff_of_false (fun hrun => ?_) fun hmeets => ?_
      · rw [hend] at hrun
        exact absurd hrun.1 Bool.false_ne_true
      · obtain ⟨s', hs', _⟩ := (hstep s a hs).mpr hmeets.1
        rw [h] at hs'
        cases hs'
    | some s' =>
      rw [foldlM_cons_some h, states_some h, meets_cons h, List.forall_mem_cons]
      constructor
      · rintro ⟨hend, _, hall⟩
        have hs' := hall s' (mem_states_self s' as)
        exact ⟨(hstep s a hs).mp ⟨s', h, hs'⟩, (ih s' (hkeep s a s' hs h hs')).mp ⟨hend, hall⟩⟩
      · rintro ⟨hok, hmeets⟩
        obtain ⟨t, ht, hPt⟩ := (hstep s a hs).mpr hok
        cases h.symm.trans ht
        obtain ⟨hend, hall⟩ := (ih s' (hkeep s a s' hs h hPt)).mpr hmeets
        exact ⟨hend, hP s hs, hall⟩

/-- A loop whose body always succeeds and keeps `I`. -/
theorem foldlM_rule {f : State → Act → Option State} : ∀ (l : List Act),
    (∀ s, ∀ a ∈ l, I s → ∃ s', f s a = some s' ∧ I s') → ∀ s, I s →
    ∃ s', l.foldlM f s = some s' ∧ I s'
  | [], _, s, hs => ⟨s, rfl, hs⟩
  | a :: l, hbody, s, hs => by
    obtain ⟨s₁, h₁, hI⟩ := hbody s a List.mem_cons_self hs
    obtain ⟨s₂, h₂, hI₂⟩ := foldlM_rule l (fun s b hb => hbody s b (List.mem_cons_of_mem _ hb)) s₁ hI
    refine ⟨s₂, ?_, hI₂⟩
    rw [List.foldlM_cons, h₁]
    exact h₂

/-- What a loop over `0 … n-1` that ran to its end has established, index by index. -/
theorem foldlM_range_rule {f : State → ℕ → Option State} {I : ℕ → State → Prop}
    (hbody : ∀ k s s', I k s → f s k = some s' → I (k + 1) s') :
    ∀ (n : ℕ) {s s' : State}, I 0 s → (List.range n).foldlM f s = some s' → I n s' := by
  intro n
  induction n with
  | zero =>
    intro s s' hs h
    cases h
    exact hs
  | succ n ih =>
    intro s s' hs h
    rw [List.range_succ, List.foldlM_append, Option.bind_eq_bind, Option.bind_eq_some_iff] at h
    obtain ⟨t, ht, h⟩ := h
    have hlast : f t n = some s' := by simpa using h
    exact hbody n t s' (ih hs ht) hlast

/-! ### Histories -/

/-- Every event meets its condition in view of the events before it. -/
def Ordered {Event : Type} (ok : List Event → Event → Prop) (history : List Event) : Prop :=
  ∀ pre e post, history = pre ++ e :: post → ok pre e

theorem Ordered.nil {Event : Type} {ok : List Event → Event → Prop} : Ordered ok [] :=
  fun _ _ _ h => absurd h.symm (List.append_ne_nil_of_right_ne_nil _ (List.cons_ne_nil _ _))

theorem Ordered.snoc {Event : Type} {ok : List Event → Event → Prop} {history : List Event} {e : Event}
    (h : Ordered ok history) (he : ok history e) : Ordered ok (history ++ [e]) := by
  intro pre x post hsplit
  rcases List.eq_nil_or_concat post with rfl | ⟨post, y, rfl⟩
  · obtain ⟨rfl, hx⟩ := List.append_inj' hsplit rfl
    rw [← List.head_eq_of_cons_eq hx]
    exact he
  · rw [List.concat_eq_append, ← List.cons_append, ← List.append_assoc] at hsplit
    exact h pre x post (List.append_inj' hsplit rfl).1

end UrlTraveler.Runs
