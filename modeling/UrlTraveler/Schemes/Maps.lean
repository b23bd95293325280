import Mathlib

/-! Finite maps as association lists.

    `insertNew`, `setKey` and `eraseKey` are `std::map::insert`, assignment through `operator[]` and
    `std::map::erase`: inserting under a key that is there already changes nothing. What they do is
    said once, by `lookup`; with keys listed once, a list is known by its lookups up to order.

    Two maps are `Inverse` when each undoes the other. Entering a pair in both keeps them so exactly
    when the pair is there already or neither half of it is (`setKey_iff`). -/

namespace UrlTraveler.Maps

variable {κ α : Type} [BEq κ] [LawfulBEq κ] [DecidableEq κ]

/-- `std::map::insert`. -/
def insertNew (m : List (κ × α)) (k : κ) (a : α) : List (κ × α) :=
  if (m.lookup k).isSome then m else m ++ [(k, a)]

/-- `std::map::erase`. -/
def eraseKey (m : List (κ × α)) (k : κ) : List (κ × α) := m.filter (·.1 ≠ k)

/-- `m[k] = a`. -/
def setKey (m : List (κ × α)) (k : κ) (a : α) : List (κ × α) := eraseKey m k ++ [(k, a)]

/-- Every key is listed once. -/
def Keys (m : List (κ × α)) : Prop := (m.map (·.1)).Nodup

theorem lookup_cons (e : κ × α) (m : List (κ × α)) (x : κ) :
    (e :: m).lookup x = if x = e.1 then some e.2 else m.lookup x := by
  rw [List.lookup_cons]
  by_cases h : x = e.1
  · simp [h]
  · simp [h, beq_eq_false_iff_ne.mpr h]

theorem lookup_append (m m' : List (κ × α)) (x : κ) :
    (m ++ m').lookup x = (m.lookup x).or (m'.lookup x) := by
  induction m with
  | nil => rfl
  | cons e m ih =>
    rw [List.cons_append, lookup_cons, lookup_cons, ih]
    split <;> rfl

theorem lookup_insertNew (m : List (κ × α)) (k : κ) (a : α) (x : κ) :
    (insertNew m k a).lookup x = (m.lookup x).or (if x = k then some a else none) := by
  rw [insertNew]
  split
  next h =>
    by_cases hx : x = k
    · obtain ⟨b, hb⟩ := Option.isSome_iff_exists.mp h
      rw [hx, hb]
      rfl
    · simp [hx]
  next => rw [lookup_append, lookup_cons, List.lookup_nil]

theorem lookup_eraseKey (m : List (κ × α)) (k x : κ) :
    (eraseKey m k).lookup x = if x = k then none else m.lookup x := by
  induction m with
  | nil => simp [eraseKey]
  | cons e m ih =>
    rw [eraseKey] at ih ⊢
    by_cases he : e.1 = k
    · rw [List.filter_cons_of_neg (by simpa using he), ih, lookup_cons, he]
      split <;> rfl
    · rw [List.filter_cons_of_pos (by simpa using he), lookup_cons, lookup_cons, ih]
      by_cases hx : x = k
      · simp [hx, Ne.symm he]
      · simp [hx]

theorem lookup_setKey (m : List (κ × α)) (k : κ) (a : α) (x : κ) :
    (setKey m k a).lookup x = if x = k then some a else m.lookup x := by
  rw [setKey, lookup_append, lookup_eraseKey, lookup_cons, List.lookup_nil]
  split
  next => rfl
  next => simp

omit [DecidableEq κ] in
theorem mem_of_lookup {m : List (κ × α)} {k : κ} {a : α} (h : m.lookup k = some a) :
    (k, a) ∈ m := by
  obtain ⟨l₁, l₂, hm, _⟩ := List.lookup_eq_some_iff.mp h
  rw [hm]
  simp

theorem mem_keys {m : List (κ × α)} {x : κ} : x ∈ m.map (·.1) ↔ (m.lookup x).isSome := by
  induction m with
  | nil => simp
  | cons e m ih =>
    rw [List.map_cons, List.mem_cons, ih, lookup_cons]
    by_cases h : x = e.1 <;> simp [h]

theorem Keys.insertNew {m : List (κ × α)} (h : Keys m) (k : κ) (a : α) : Keys (insertNew m k a) := by
  rw [Maps.insertNew]
  split
  next => exact h
  next hk =>
    rw [Keys, List.map_append, List.nodup_append]
    refine ⟨h, List.nodup_singleton _, ?_⟩
    rintro x hx y hy rfl
    obtain rfl : x = k := by simpa using hy
    exact hk (mem_keys.mp hx)

omit [BEq κ] [LawfulBEq κ] in
theorem Keys.eraseKey {m : List (κ × α)} (h : Keys m) (k : κ) : Keys (eraseKey m k) :=
  (List.filter_sublist.map _).nodup h

theorem Keys.lookup {m : List (κ × α)} (h : Keys m) {k : κ} {a : α} (he : (k, a) ∈ m) :
    m.lookup k = some a := by
  induction m with
  | nil => cases he
  | cons e m ih =>
    obtain ⟨hne, h⟩ := List.nodup_cons.mp h
    rw [lookup_cons]
    rcases List.mem_cons.mp he with rfl | he
    · simp
    · have hke : k ≠ e.1 := fun hke => hne (List.mem_map.mpr ⟨(k, a), he, hke⟩)
      simpa [hke] using ih h he

omit [BEq κ] [LawfulBEq κ] in
/-- Assignment through `operator[]` appends a new key. -/
theorem setKey_of_notMem {m : List (κ × α)} {k : κ} (h : k ∉ m.map (·.1)) (a : α) :
    setKey m k a = m ++ [(k, a)] := by
  have hfilter : eraseKey m k = m := by
    refine List.filter_eq_self.mpr fun e he => ?_
    have hne : e.1 ≠ k := fun hk => h (hk ▸ List.mem_map_of_mem he)
    simpa using hne
  rw [setKey, hfilter]

/-- A map with one key is one entry. -/
theorem Keys.eq_single {m : List (κ × α)} (h : Keys m) {k : κ} {a : α}
    (hm : ∀ x, m.lookup x = if x = k then some a else none) : m = [(k, a)] := by
  have hkey : ∀ e ∈ m, e = (k, a) := by
    intro e he
    have hl := h.lookup he
    rw [hm] at hl
    split at hl
    next hek =>
      cases hl
      rw [← hek]
    next => cases hl
  have hne : m ≠ [] := by
    rintro rfl
    simpa using hm k
  match m, h, hkey, hne with
  | [e], _, hkey, _ => rw [hkey e List.mem_cons_self]
  | e :: e' :: m, h, hkey, _ =>
    rw [hkey e List.mem_cons_self, hkey e' (by simp)] at h
    simp [Keys] at h

/-- A map is one entry if and only if exactly one key is found in it. -/
theorem Keys.single_iff {m : List (κ × α)} (h : Keys m) :
    (∃ k a, m = [(k, a)]) ↔ ∃! k, (m.lookup k).isSome := by
  constructor
  · rintro ⟨k, a, rfl⟩
    refine ⟨k, by simp, fun x hx => ?_⟩
    simpa using mem_keys.mpr hx
  · rintro ⟨k, hk, huniq⟩
    obtain ⟨a, ha⟩ := Option.isSome_iff_exists.mp hk
    refine ⟨k, a, h.eq_single fun x => ?_⟩
    split
    next hx => rw [hx, ha]
    next hx => exact Option.not_isSome_iff_eq_none.mp fun hx' => hx (huniq x hx')

/-! ### Two maps that undo each other -/

section Inverse

variable [BEq α] [LawfulBEq α] [DecidableEq α] {m : List (κ × α)} {m' : List (α × κ)}

/-- `m` sends `k` to `a` exactly when `m'` sends `a` to `k`. -/
def Inverse (m : List (κ × α)) (m' : List (α × κ)) : Prop :=
  ∀ k a, m.lookup k = some a ↔ m'.lookup a = some k

theorem Inverse.setKey_iff (h : Inverse m m') (k : κ) (a : α) :
    Inverse (setKey m k a) (setKey m' a k) ↔
      m.lookup k = none ∧ m'.lookup a = none ∨ m.lookup k = some a := by
  constructor
  · intro hset
    have hk : ∀ b, m.lookup k = some b → b = a := by
      intro b hb
      have hset' := (hset k b).mpr
      rw [lookup_setKey, lookup_setKey, if_pos rfl] at hset'
      by_contra hne
      rw [if_neg hne] at hset'
      exact hne (Option.some.inj (hset' ((h k b).mp hb))).symm
    have ha : ∀ x, m'.lookup a = some x → x = k := by
      intro x hx
      have hset' := (hset x a).mp
      rw [lookup_setKey, lookup_setKey, if_pos rfl] at hset'
      by_contra hne
      rw [if_neg hne] at hset'
      exact hne (Option.some.inj (hset' ((h x a).mpr hx))).symm
    cases hb : m.lookup k with
    | some b => exact .inr (by rw [hk b hb])
    | none =>
      refine .inl ⟨rfl, Option.eq_none_iff_forall_ne_some.mpr fun x hx => ?_⟩
      rw [ha x hx, ← h, hb] at hx
      cases hx
  · intro hfit x b
    rw [lookup_setKey, lookup_setKey]
    by_cases hx : x = k <;> by_cases hb : b = a
    · simp [hx, hb]
    · rw [if_pos hx, if_neg hb, hx, ← h]
      rcases hfit with ⟨hk, _⟩ | hk
      · simp [hk, Ne.symm hb]
      · simp [hk]
    · rw [if_neg hx, if_pos hb, hb, h]
      rcases hfit with ⟨_, ha⟩ | hk
      · simp [ha, Ne.symm hx]
      · simp [(h k a).mp hk]
    · rw [if_neg hx, if_neg hb, h]

theorem Inverse.eraseKey (h : Inverse m m') {k : κ} {a : α} (hk : m.lookup k = some a) :
    Inverse (eraseKey m k) (eraseKey m' a) := by
  intro x b
  rw [lookup_eraseKey, lookup_eraseKey]
  by_cases hx : x = k <;> by_cases hb : b = a
  · simp [hx, hb]
  · rw [if_pos hx, if_neg hb, hx, ← h, hk]
    simp [Ne.symm hb]
  · rw [if_neg hx, if_pos hb, hb, h, (h k a).mp hk]
    simp [Ne.symm hx]
  · rw [if_neg hx, if_neg hb, h]

end Inverse

end UrlTraveler.Maps
