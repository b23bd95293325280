import UrlTraveler.PlugIn.MergeRun
import UrlTraveler.Schemes.Runs

/-! `DoExportThread`: the windows of the favorites vector the plug-ins are given, and the erase loop.

    The vector has a slot for everything that was counted. A plug-in gets the slots from
    `nCurrentOffset` on, as many as it counted; when it returns TRUE the offset moves on by the
    number it reports, when it returns FALSE the next plug-in gets the same slots:

        count 3, reports 2, TRUE      [■ ■ □]
        count 2,            FALSE         [□ □]
        count 2, reports 2, TRUE          [■ ■]

    So the slots plug-ins report lie apart, but a plug-in that reports less than it counted shares
    the end of its window with the next one. What a plug-in does to its slots is left open: `Call`
    is anything it may do. After the merge a loop erases records; on a null pointer it `continue`s
    without moving its iterator, and never ends. And the loop is only reached if the merge comes
    back, which it does when no two records share an id: `Merge` skips the records with id 0, and
    the ids above a record it is called on are all different. -/

namespace UrlTraveler.Windows
open Merge Runs Forest

/-- What one plug-in does in an export: what it counts, and its slots, `nDataNum` and return value
    after `ExportFavoriteData`. It changes its own slots only, and may lower `nDataNum`. A plug-in
    pointer that is null behaves as a count of 0. -/
structure Call where
  nFavoriteCount : ℕ
  slots : PPData
  nDataNum : ℕ
  bRet : Bool
  length_slots : slots.length = nFavoriteCount
  nDataNum_le : nDataNum ≤ nFavoriteCount

/-- A window as it is passed. -/
structure Window where
  nCurrentOffset : ℕ
  call : Call

/-- The vector, the offset, and the windows passed so far. -/
structure Thread where
  pvFavoriteData : PPData
  nCurrentOffset : ℕ
  passed : List Window

/-- The slots from `o` on are replaced. -/
def write (v : PPData) (w : Window) : PPData :=
  v.take w.nCurrentOffset ++ w.call.slots ++ v.drop (w.nCurrentOffset + w.call.nFavoriteCount)

/-- The window ends inside a vector of `n` slots. -/
def Window.Inside (n : ℕ) (w : Window) : Prop := w.nCurrentOffset + w.call.nFavoriteCount ≤ n

instance (n : ℕ) (w : Window) : Decidable (w.Inside n) := inferInstanceAs (Decidable (_ ≤ _))

/-- The body of the loop over the plug-ins; an access outside the vector ends the program. -/
def exportStep (t : Thread) (c : Call) : Option Thread :=
  if c.nFavoriteCount = 0 then some t
  else
    let w : Window := ⟨t.nCurrentOffset, c⟩
    if w.Inside t.pvFavoriteData.length then
      some ⟨write t.pvFavoriteData w,
        if c.bRet then t.nCurrentOffset + c.nDataNum else t.nCurrentOffset, t.passed ++ [w]⟩
    else none

/-- The loop over the plug-ins, after `InitFavoriteData` has made `m_nSumFavorite` records. -/
def exportAll (fresh : FavoriteLineData) (calls : List Call) : Option Thread :=
  calls.foldlM exportStep ⟨List.replicate (calls.map (·.nFavoriteCount)).sum (some fresh), 0, []⟩

/-- The erase loop: the vector and the iterator. `none` is a loop longer than the fuel. -/
def eraseLoop : ℕ → PPData → ℕ → Option PPData
  | 0, _, _ => none
  | fuel + 1, v, itr =>
    match v[itr]? with
    | none => some v
    | some none => eraseLoop fuel v itr
    | some (some r) =>
      if r.bDelete = true ∨ r.szTitle = [] then eraseLoop fuel (v.eraseIdx itr) itr
      else eraseLoop fuel v (itr + 1)

/-! ### Windows -/

/-- The windows of a run that starts at offset `o`. -/
def windows : ℕ → List Call → List Window
  | _, [] => []
  | o, c :: calls =>
    if c.nFavoriteCount = 0 then windows o calls
    else ⟨o, c⟩ :: windows (if c.bRet then o + c.nDataNum else o) calls

theorem length_write {v : PPData} {w : Window} (h : w.Inside v.length) :
    (write v w).length = v.length := by
  have hlen := w.call.length_slots
  rw [Window.Inside] at h
  simp only [write, List.length_append, List.length_take, List.length_drop]
  omega

theorem length_foldl_write : ∀ (ws : List Window) (v : PPData), (∀ w ∈ ws, w.Inside v.length) →
    (ws.foldl write v).length = v.length := by
  intro ws
  induction ws with
  | nil => exact fun v _ => rfl
  | cons w ws ih =>
    intro v h
    obtain ⟨hw, hws⟩ := List.forall_mem_cons.mp h
    rw [List.foldl_cons, ih (write v w) (by rwa [length_write hw]), length_write hw]

/-- INSIDE: with as many slots left as the remaining plug-ins count, the loop runs through. -/
theorem foldlM_exportStep : ∀ (calls : List Call) (t : Thread),
    t.nCurrentOffset + (calls.map (·.nFavoriteCount)).sum ≤ t.pvFavoriteData.length →
    ∃ t', calls.foldlM exportStep t = some t' ∧
      t'.passed = t.passed ++ windows t.nCurrentOffset calls ∧
      t'.pvFavoriteData = (windows t.nCurrentOffset calls).foldl write t.pvFavoriteData ∧
      ∀ w ∈ windows t.nCurrentOffset calls, w.Inside t.pvFavoriteData.length := by
  intro calls
  induction calls with
  | nil => exact fun t _ => ⟨t, rfl, by simp [windows], rfl, by simp [windows]⟩
  | cons c calls ih =>
    intro t h
    rw [List.map_cons, List.sum_cons] at h
    by_cases h0 : c.nFavoriteCount = 0
    · have hskip : exportStep t c = some t := by simp [exportStep, h0]
      rw [foldlM_cons_some hskip]
      simp only [windows, h0, if_true]
      exact ih t (by omega)
    · have hin : Window.Inside t.pvFavoriteData.length ⟨t.nCurrentOffset, c⟩ := by
        change t.nCurrentOffset + c.nFavoriteCount ≤ _
        omega
      let t₁ : Thread := ⟨write t.pvFavoriteData ⟨t.nCurrentOffset, c⟩,
        if c.bRet then t.nCurrentOffset + c.nDataNum else t.nCurrentOffset,
        t.passed ++ [⟨t.nCurrentOffset, c⟩]⟩
      have hstep : exportStep t c = some t₁ := by simp [exportStep, h0, hin, t₁]
      have hle := c.nDataNum_le
      have hroom : t₁.nCurrentOffset + (calls.map (·.nFavoriteCount)).sum ≤
          t₁.pvFavoriteData.length := by
        simp only [t₁, length_write hin]
        split <;> omega
      obtain ⟨t', hrun, hpassed, hvec, hall⟩ := ih t₁ hroom
      rw [foldlM_cons_some hstep]
      refine ⟨t', hrun, ?_, ?_, ?_⟩
      · simpa [windows, h0, t₁] using hpassed
      · simpa [windows, h0, t₁] using hvec
      · simp only [windows, h0, if_false, List.forall_mem_cons]
        simp only [t₁, length_write hin] at hall
        exact ⟨hin, hall⟩

/-! ### Which windows lie apart -/

/-- The windows of the plug-ins that returned TRUE. -/
def filled (ws : List Window) : List Window := ws.filter (·.call.bRet)

/-- No slot lies in both windows, as they were passed. -/
def Apart (w w' : Window) : Prop :=
  w.nCurrentOffset + w.call.nFavoriteCount ≤ w'.nCurrentOffset ∨
    w'.nCurrentOffset + w'.call.nFavoriteCount ≤ w.nCurrentOffset

/-- No slot is reported by both plug-ins. -/
def ReportsApart (w w' : Window) : Prop :=
  w.nCurrentOffset + w.call.nDataNum ≤ w'.nCurrentOffset ∨
    w'.nCurrentOffset + w'.call.nDataNum ≤ w.nCurrentOffset

/-- Every window starts where the reports of those before it end, the first one at `o`. -/
def Packed : ℕ → List Window → Prop
  | _, [] => True
  | o, w :: ws => w.nCurrentOffset = o ∧ 0 < w.call.nFavoriteCount ∧ Packed (o + w.call.nDataNum) ws

theorem filled_packed : ∀ (calls : List Call) (o : ℕ), Packed o (filled (windows o calls)) := by
  intro calls
  induction calls with
  | nil => exact fun o => trivial
  | cons c calls ih =>
    intro o
    by_cases h0 : c.nFavoriteCount = 0
    · simpa [windows, h0] using ih o
    · cases hb : c.bRet with
      | true => simpa [windows, h0, filled, hb, Packed, Nat.pos_of_ne_zero h0] using ih _
      | false => simpa [windows, h0, filled, hb] using ih o

theorem Packed.le : ∀ {ws : List Window} {o : ℕ}, Packed o ws → ∀ w ∈ ws, o ≤ w.nCurrentOffset
  | [], _, _, _, hw => by cases hw
  | w :: ws, o, ⟨ho, _, hp⟩, x, hx => by
    rcases List.mem_cons.mp hx with rfl | hx
    · exact ho.ge
    · have := hp.le x hx
      omega

theorem Packed.reportsApart : ∀ {ws : List Window} {o : ℕ}, Packed o ws → ws.Pairwise ReportsApart
  | [], _, _ => .nil
  | w :: ws, o, ⟨ho, _, hp⟩ => by
    refine .cons (fun x hx => .inl ?_) hp.reportsApart
    have := hp.le x hx
    omega

/-- APART: the windows as passed overlap exactly when one before the last reports less than it
    counted, since the next window starts behind its report. -/
theorem Packed.apart_iff : ∀ {ws : List Window} {o : ℕ}, Packed o ws →
    (ws.Pairwise Apart ↔ ∀ w ∈ ws.dropLast, w.call.nDataNum = w.call.nFavoriteCount)
  | [], _, _ => by simp
  | [w], _, _ => by simp
  | w :: x :: ws, o, ⟨ho, _, hp⟩ => by
    have hdrop : (∀ y ∈ (w :: x :: ws).dropLast, y.call.nDataNum = y.call.nFavoriteCount) ↔
        w.call.nDataNum = w.call.nFavoriteCount ∧
          ∀ y ∈ (x :: ws).dropLast, y.call.nDataNum = y.call.nFavoriteCount := by
      rw [List.dropLast_cons_cons, List.forall_mem_cons]
    rw [List.pairwise_cons, hp.apart_iff, hdrop]
    refine and_congr_left fun _ => ?_
    constructor
    · intro h
      -- the next window starts at the end of the report
      have hle := w.call.nDataNum_le
      obtain ⟨hx, hpos, _⟩ := hp
      rcases h x List.mem_cons_self with hwx | hxw
      · omega
      · omega
    · intro h y hy
      have := hp.le y hy
      exact .inl (by omega)

/-! ### Null pointers -/

/-- The slot lies in the window. -/
def Window.Covers (w : Window) (s : ℕ) : Prop :=
  w.nCurrentOffset ≤ s ∧ s < w.nCurrentOffset + w.call.nFavoriteCount

/-- The plug-in leaves a null pointer in slot `s` of the vector. -/
def Window.LeavesNull (w : Window) (s : ℕ) : Prop :=
  w.nCurrentOffset ≤ s ∧ w.call.slots[s - w.nCurrentOffset]? = some none

/-- Every null pointer a plug-in leaves lies in the window of a later one. -/
def NullsCovered : List Window → Prop
  | [] => True
  | w :: ws => (∀ s, w.LeavesNull s → ∃ w' ∈ ws, w'.Covers s) ∧ NullsCovered ws

theorem write_null_iff {v : PPData} {w : Window} (h : w.Inside v.length) (s : ℕ) :
    (write v w)[s]? = some none ↔ w.LeavesNull s ∨ v[s]? = some none ∧ ¬ w.Covers s := by
  have hlen := w.call.length_slots
  rw [Window.Inside] at h
  rw [write, List.append_assoc, Window.LeavesNull, Window.Covers]
  rcases Nat.lt_or_ge s w.nCurrentOffset with hs | hs
  · rw [List.getElem?_append_left (by simp; omega), List.getElem?_take_of_lt hs]
    simp [hs.not_ge]
  · have htake : (v.take w.nCurrentOffset).length = w.nCurrentOffset := by simp; omega
    rw [List.getElem?_append_right (by omega), htake]
    rcases Nat.lt_or_ge (s - w.nCurrentOffset) w.call.slots.length with hs' | hs'
    · have hc : s < w.nCurrentOffset + w.call.nFavoriteCount := by omega
      rw [List.getElem?_append_left hs']
      simp [hs, hc]
    · have hc : ¬ s < w.nCurrentOffset + w.call.nFavoriteCount := by omega
      have hno : w.call.slots[s - w.nCurrentOffset]? = none := List.getElem?_eq_none hs'
      rw [List.getElem?_append_right hs', List.getElem?_drop]
      have he : w.nCurrentOffset + w.call.nFavoriteCount +
        (s - w.nCurrentOffset - w.call.slots.length) = s := by omega
      simp [he, hno, hc]

/-- NULLS: the vector ends up without null pointers exactly when all are covered later. -/
theorem no_nulls_iff : ∀ (ws : List Window) (v : PPData), (∀ w ∈ ws, w.Inside v.length) →
    ((∀ s : ℕ, (ws.foldl write v)[s]? ≠ some none) ↔
      (∀ s : ℕ, v[s]? = some none → ∃ w ∈ ws, w.Covers s) ∧ NullsCovered ws) := by
  intro ws
  induction ws with
  | nil => simp [NullsCovered]
  | cons w ws ih =>
    intro v hin
    obtain ⟨hw, hws⟩ := List.forall_mem_cons.mp hin
    rw [List.foldl_cons, ih (write v w) (by rwa [length_write hw]), NullsCovered, ← and_assoc]
    refine and_congr_left fun _ => ?_
    simp only [write_null_iff hw, List.exists_mem_cons_iff]
    constructor
    · intro h
      refine ⟨fun s hs => ?_, fun s hs => h s (.inl hs)⟩
      by_cases hc : w.Covers s
      · exact .inl hc
      · exact .inr (h s (.inr ⟨hs, hc⟩))
    · rintro ⟨hv, hl⟩ s (hs | ⟨hs, hc⟩)
      · exact hl s hs
      · exact (hv s hs).resolve_left hc

/-! ### The merge keeps null pointers where they are -/

theorem absorb_null (d : PPData) (i j : ℕ) :
    (absorb d i j).map Option.isSome = d.map Option.isSome := by
  refine List.ext_getElem? fun k => ?_
  simp only [absorb, reparent, mark, List.getElem?_map, List.getElem?_modify, Option.map_map]
  cases d[k]? with
  | none => rfl
  | some o => by_cases h : i = k <;> cases o <;> simp [h]

theorem mergeLoop_null {call : St → ℤ → Option St}
    (hcall : ∀ s P s', call s P = some s' → s'.ppData.map Option.isSome = s.ppData.map Option.isSome) :
    ∀ (vec : List ℕ) (s s' : St), mergeLoop call s vec = some s' →
      s'.ppData.map Option.isSome = s.ppData.map Option.isSome
  | [], s, s', h => by
    cases h
    rfl
  | [_], s, s', h => by
    cases h
    rfl
  | i :: j :: rest, s, s', h => by
    rw [mergeLoop] at h
    split_ifs at h
    · obtain ⟨s₁, h₁, h⟩ := Option.bind_eq_some_iff.mp h
      rw [mergeLoop_null hcall (j :: rest) s₁ s' h, hcall _ _ _ h₁, absorb_null]
    · exact mergeLoop_null hcall (j :: rest) s s' h

theorem merge_null (σ : St → Sorting.Sorter ℕ) : ∀ (fuel : ℕ) (s : St) (P : ℤ) (s' : St),
    merge σ fuel s P = some s' → s'.ppData.map Option.isSome = s.ppData.map Option.isSome := by
  intro fuel
  induction fuel with
  | zero =>
    intro s P s' h
    cases h
  | succ fuel ih =>
    intro s P s' h
    simp only [merge] at h
    split_ifs at h
    · have hloop := mergeLoop_null ih _ _ s' h
      exact hloop
    · cases h
      rfl

/-! ### The merge ends when no two records share an id -/

/-- No two records have the same id, 0 aside. -/
def IdsDistinct (v : PPData) : Prop :=
  v.Pairwise fun a b => ∀ r ∈ a, ∀ r' ∈ b, r.nId = r'.nId → r.nId = 0

instance (v : PPData) : Decidable (IdsDistinct v) := inferInstanceAs (Decidable (List.Pairwise _ _))

theorem keyed_seen {d : PPData} (h : IdsDistinct d) : Keyed (hashes (seen d)) where
  nonzero hi := by
    obtain ⟨r, hr, rfl⟩ := table_inv hi
    exact (recAt_seen_iff.mp hr).2
  inj {i j _ _} hi hj he := by
    obtain ⟨r, hr, rfl⟩ := table_inv hi
    obtain ⟨r', hr', rfl⟩ := table_inv hj
    obtain ⟨hr, hne⟩ := recAt_seen_iff.mp hr
    obtain ⟨hr', hne'⟩ := recAt_seen_iff.mp hr'
    have hmem : ∀ {k x}, recAt d k = some x → ∃ hk : k < d.length, d[k] = some x := fun hx =>
      List.getElem?_eq_some_iff.mp (Option.join_eq_some_iff.mp hx)
    obtain ⟨hlt, hget⟩ := hmem hr
    obtain ⟨hlt', hget'⟩ := hmem hr'
    have hpair := List.pairwise_iff_getElem.mp h
    rcases Nat.lt_trichotomy i j with hij | hij | hij
    · exact absurd (hpair i j hlt hlt' hij r hget r' hget' he) hne
    · exact hij
    · exact absurd (hpair j i hlt' hlt hij r' hget' r hget he.symm) hne'

/-- `Merge(ppData, nLen, 0)` comes back: from some depth of the recursion on, with one result. -/
def MergeEnds (σ : St → Sorting.Sorter ℕ) (v : PPData) (merged : St) : Prop :=
  ∃ m, ∀ fuel ≥ m, merge σ fuel ⟨v, []⟩ 0 = some merged

theorem mergeEnds_of_idsDistinct (σ : St → Sorting.Sorter ℕ) {v : PPData} (h : IdsDistinct v) :
    ∃ merged, MergeEnds σ v merged := by
  obtain ⟨merged, hm, -⟩ := merge_ends σ v.length (v.length + 1) [] (by simp) ⟨v, []⟩ 0 rfl
    (keyed_seen h) .root
  exact ⟨merged, v.length + 1, fun fuel hf => merge_mono σ hf hm⟩

/-! ### The erase loop -/

/-- What the erase loop is there to keep. -/
def keep : Option FavoriteLineData → Bool
  | none => false
  | some r => !r.bDelete && !r.szTitle.isEmpty

theorem keep_eq_false_iff (r : FavoriteLineData) :
    keep (some r) = false ↔ r.bDelete = true ∨ r.szTitle = [] := by
  cases hd : r.bDelete <;> cases ht : r.szTitle <;> simp [keep, hd, ht]

section EraseStep
variable {v : PPData} {itr : ℕ}

/-- One round at a record, seen from the part the loop has still to read. -/
theorem eraseLoop_record {r : FavoriteLineData} {rest : PPData} (h : v.drop itr = some r :: rest)
    (fuel : ℕ) : eraseLoop (fuel + 1) v itr =
      if r.bDelete = true ∨ r.szTitle = [] then eraseLoop fuel (v.take itr ++ rest) itr
      else eraseLoop fuel v (itr + 1) := by
  have hget : v[itr]? = some (some r) := by
    rw [← List.head?_drop, h]
    rfl
  have herase : v.eraseIdx itr = v.take itr ++ rest := by
    rw [List.eraseIdx_eq_take_drop_succ, ← List.tail_drop, h]
    rfl
  simp only [eraseLoop, hget, herase]

theorem eraseLoop_null {rest : PPData} (h : v.drop itr = none :: rest) (fuel : ℕ) :
    eraseLoop (fuel + 1) v itr = eraseLoop fuel v itr := by
  have hget : v[itr]? = some none := by
    rw [← List.head?_drop, h]
    rfl
  simp only [eraseLoop, hget]

theorem eraseLoop_end (h : v.drop itr = []) (fuel : ℕ) : eraseLoop (fuel + 1) v itr = some v := by
  have hget : v[itr]? = none := by
    rw [← List.head?_drop, h]
    rfl
  simp only [eraseLoop, hget]

theorem drop_take_append {x : Option FavoriteLineData} {rest : PPData}
    (h : v.drop itr = x :: rest) : (v.take itr ++ rest).drop itr = rest ∧
      (v.take itr ++ rest).take itr = v.take itr ∧ v.drop (itr + 1) = rest ∧
      v.take (itr + 1) = v.take itr ++ [x] := by
  have hlt : itr < v.length := by
    by_contra hge
    rw [List.drop_eq_nil_of_le (not_lt.mp hge)] at h
    cases h
  have hlen : (v.take itr).length = itr := by simp; omega
  refine ⟨?_, ?_, ?_, ?_⟩
  · rw [List.drop_append_of_le_length hlen.ge, List.drop_of_length_le hlen.le, List.nil_append]
  · rw [List.take_append_of_le_length hlen.ge, List.take_of_length_le hlen.le]
  · rw [← List.tail_drop, h]
    rfl
  · rw [List.take_add_one, ← List.head?_drop, h]
    rfl

end EraseStep

/-- ERASE: without a null pointer from the iterator on, the loop ends and keeps what it should. -/
theorem eraseLoop_ends : ∀ (todo v : PPData) (itr : ℕ), v.drop itr = todo → none ∉ todo →
    ∀ fuel > todo.length, eraseLoop fuel v itr = some (v.take itr ++ todo.filter keep) := by
  intro todo
  induction todo with
  | nil =>
    intro v itr h _ fuel hf
    obtain ⟨fuel, rfl⟩ : ∃ n, fuel = n + 1 := ⟨fuel - 1, by simp at hf; omega⟩
    rw [eraseLoop_end h, List.take_of_length_le (List.drop_eq_nil_iff.mp h)]
    simp
  | cons x rest ih =>
    intro v itr h hnull fuel hf
    obtain ⟨fuel, rfl⟩ : ∃ n, fuel = n + 1 := ⟨fuel - 1, by simp at hf; omega⟩
    have hrest : none ∉ rest := fun hm => hnull (List.mem_cons_of_mem _ hm)
    have hfuel : fuel > rest.length := by simpa using hf
    obtain ⟨hd, ht, hd', ht'⟩ := drop_take_append h
    cases x with
    | none => exact absurd List.mem_cons_self hnull
    | some r =>
      rw [eraseLoop_record h]
      split_ifs with hgone
      · rw [ih _ itr hd hrest fuel hfuel, ht, List.filter_cons,
          if_neg (by rw [(keep_eq_false_iff r).mpr hgone]; decide)]
      · have hkeep : keep (some r) = true := by
          rw [← Bool.not_eq_false, keep_eq_false_iff]
          exact hgone
        rw [ih v (itr + 1) hd' hrest fuel hfuel, ht', List.filter_cons, if_pos hkeep]
        simp

/-- A null pointer from the iterator on keeps the loop going for ever. -/
theorem eraseLoop_never_ends : ∀ (fuel : ℕ) (v : PPData) (itr : ℕ), none ∈ v.drop itr →
    eraseLoop fuel v itr = none := by
  intro fuel
  induction fuel with
  | zero => exact fun v itr _ => rfl
  | succ fuel ih =>
    intro v itr h
    cases htodo : v.drop itr with
    | nil =>
      rw [htodo] at h
      cases h
    | cons x rest =>
      rw [htodo] at h
      cases x with
      | none =>
        rw [eraseLoop_null htodo]
        exact ih v itr (htodo ▸ List.mem_cons_self)
      | some r =>
        have hrest : none ∈ rest := by simpa using h
        obtain ⟨hd, _, hd', _⟩ := drop_take_append htodo
        rw [eraseLoop_record htodo]
        split_ifs
        · exact ih _ itr (by rwa [hd])
        · exact ih v (itr + 1) (by rwa [hd'])

theorem eraseLoop_ends_iff (v : PPData) :
    (∃ m, ∀ fuel ≥ m, eraseLoop fuel v 0 = some (v.filter keep)) ↔ none ∉ v := by
  constructor
  · rintro ⟨m, hm⟩ hnull
    have hnone := eraseLoop_never_ends m v 0 hnull
    rw [hm m le_rfl] at hnone
    cases hnone
  · exact fun hnull => ⟨v.length + 1, fun fuel hf => eraseLoop_ends v v 0 rfl hnull fuel hf⟩

/-- `eraseDeleted` is what the loop computes. -/
theorem eraseDeleted_eq : ∀ v : PPData, none ∉ v →
    ∃ out, eraseDeleted v = some out ∧ out.map some = v.filter keep := by
  intro v
  induction v with
  | nil => exact fun _ => ⟨[], rfl, rfl⟩
  | cons x rest ih =>
    intro hnull
    obtain ⟨out, hout, he⟩ := ih fun hm => hnull (List.mem_cons_of_mem _ hm)
    cases x with
    | none => exact absurd List.mem_cons_self hnull
    | some r =>
      by_cases hgone : r.bDelete = true ∨ r.szTitle = []
      · have hkeep := (keep_eq_false_iff r).mpr hgone
        exact ⟨out, by simp [eraseDeleted, hgone, hout], by simp [hkeep, he]⟩
      · have hkeep : keep (some r) = true := by
          rw [← Bool.not_eq_false, keep_eq_false_iff]
          exact hgone
        exact ⟨r :: out, by simp [eraseDeleted, hgone, hout], by simp [hkeep, he]⟩

/-! ### The whole thread -/

/-- Only the last plug-in that returns TRUE reports less than it counted. -/
def KeepsCounts (calls : List Call) : Prop :=
  ∀ w ∈ (filled (windows 0 calls)).dropLast, w.call.nDataNum = w.call.nFavoriteCount

/-- The loop comes to its end with what it should keep, in the order it was in. -/
def Erased (v : PPData) : Prop := ∃ m, ∀ fuel ≥ m, eraseLoop fuel v 0 = some (v.filter keep)

/-- The merge comes back, and then the erase loop comes to its end as it should. -/
def CleansUp (σ : St → Sorting.Sorter ℕ) (v : PPData) : Prop :=
  ∃ merged, MergeEnds σ v merged ∧ Erased merged.ppData

theorem erased_iff {σ : St → Sorting.Sorter ℕ} {v : PPData} {merged : St}
    (h : MergeEnds σ v merged) : Erased merged.ppData ↔ none ∉ v := by
  obtain ⟨m, hm⟩ := h
  have hsame := merge_null σ m _ _ _ (hm m le_rfl)
  have hmem : ∀ d : PPData, none ∈ d ↔ false ∈ d.map Option.isSome := by simp
  rw [Erased, eraseLoop_ends_iff, hmem, hsame, ← hmem]

/-- WINDOWS: the loop over the plug-ins runs through, every window lies inside the vector, and the
    slots reported by plug-ins that return TRUE lie apart. Their windows as passed lie apart exactly
    when all but the last of them report what they counted. And for every tie order the merge comes
    back and the erase loop ends as it should exactly when the merge comes back and every null
    pointer a plug-in leaves is in a later window; the merge does come back when no two records
    share an id. -/
theorem exportAll_windows (fresh : FavoriteLineData) (calls : List Call) :
    ∃ t, exportAll fresh calls = some t ∧ t.passed = windows 0 calls ∧
      (∀ w ∈ t.passed, w.Inside t.pvFavoriteData.length) ∧
      (filled t.passed).Pairwise ReportsApart ∧
      ((filled t.passed).Pairwise Apart ↔ KeepsCounts calls) ∧
      ∀ σ : St → Sorting.Sorter ℕ,
        (CleansUp σ t.pvFavoriteData ↔
          (∃ merged, MergeEnds σ t.pvFavoriteData merged) ∧ NullsCovered (windows 0 calls)) ∧
        (IdsDistinct t.pvFavoriteData → ∃ merged, MergeEnds σ t.pvFavoriteData merged) := by
  let v : PPData := List.replicate (calls.map (·.nFavoriteCount)).sum (some fresh)
  obtain ⟨t, hrun, hpassed, hvec, hin⟩ := foldlM_exportStep calls ⟨v, 0, []⟩ (by simp [v])
  simp only [List.nil_append] at hpassed
  have hfresh : ∀ s : ℕ, v[s]? ≠ some none := by
    intro s hs
    have := List.eq_of_mem_replicate (List.mem_of_getElem? hs)
    cases this
  have hnulls : none ∉ t.pvFavoriteData ↔ NullsCovered (windows 0 calls) := by
    rw [List.mem_iff_getElem?, not_exists, hvec, no_nulls_iff _ v hin]
    exact ⟨fun h => h.2, fun h => ⟨fun s hs => absurd hs (hfresh s), h⟩⟩
  refine ⟨t, hrun, hpassed, ?_, ?_, ?_, fun σ => ⟨?_, mergeEnds_of_idsDistinct σ⟩⟩
  · rw [hpassed, hvec, length_foldl_write _ v hin]
    exact hin
  · rw [hpassed]
    exact (filled_packed calls 0).reportsApart
  · rw [hpassed]
    exact (filled_packed calls 0).apart_iff
  · rw [← hnulls]
    constructor
    · rintro ⟨merged, hends, herased⟩
      exact ⟨⟨merged, hends⟩, (erased_iff hends).mp herased⟩
    · rintro ⟨⟨merged, hends⟩, hnull⟩
      exact ⟨merged, hends, (erased_iff hends).mpr hnull⟩

/-- A plug-in that writes two bookmarks and one that writes a third. -/
def twoThenOne : List Call :=
  [⟨2, [some { nId := 1, szTitle := ['a'] }, some { nId := 2, szTitle := ['b'] }], 2, true,
      by decide, by decide⟩,
   ⟨1, [some { nId := 3, szTitle := ['c'] }], 1, true, by decide, by decide⟩]

theorem exportAll_windows_twoThenOne : ∃ t, exportAll {} twoThenOne = some t ∧
    (filled t.passed).Pairwise Apart ∧
      CleansUp (fun _ => Sorting.insertion) t.pvFavoriteData := by
  obtain ⟨t, hrun, -, -, -, hapart, herase⟩ := exportAll_windows {} twoThenOne
  have hcounts : KeepsCounts twoThenOne := by
    unfold KeepsCounts
    decide
  have hnulls : NullsCovered (windows 0 twoThenOne) := by
    have hall : ∀ w ∈ windows 0 twoThenOne, none ∉ w.call.slots := by decide
    have hno : ∀ w ∈ windows 0 twoThenOne, ∀ s, ¬ w.LeavesNull s := fun w hw s hs =>
      hall w hw (List.mem_of_getElem? hs.2)
    refine ⟨fun s hs => absurd hs (hno _ ?_ s), fun s hs => absurd hs (hno _ ?_ s), trivial⟩
    · exact List.mem_cons_self
    · exact List.mem_cons_of_mem _ List.mem_cons_self
  have hids : IdsDistinct t.pvFavoriteData := by
    rw [← Option.some.inj hrun]
    decide
  obtain ⟨hiff, hends⟩ := herase fun _ => Sorting.insertion
  exact ⟨t, hrun, hapart.mpr hcounts, hiff.mpr ⟨hends hids, hnulls⟩⟩

/-- What the Firefox plug-in does with one bookmark: it clears its pointers and returns FALSE. -/
def fireFoxCall : Call := ⟨1, [none], 1, false, by decide, by decide⟩

/-- After Firefox the erase loop meets a null pointer. -/
theorem exportAll_fireFox_never_ends : ∃ t merged, exportAll {} [fireFoxCall] = some t ∧
    mergeAll (fun _ => Sorting.insertion) t.pvFavoriteData = some merged ∧
    ∀ fuel, eraseLoop fuel merged.ppData 0 = none :=
  ⟨_, ⟨[none], [0]⟩, rfl, rfl, fun fuel => eraseLoop_never_ends fuel [none] 0 (by decide)⟩

end UrlTraveler.Windows
