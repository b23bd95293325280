import UrlTraveler.Schemes.Words

/-! `QueryDownloadProcess`: how far a download has come.

    `handle_process` copies the lengths of the transfer into the context, and the query forms the
    percentage from them in 32-bit arithmetic:

        doneSize, contentLength ──▶ nFinishedLength, nContentLength
                                       │  * 100 (wraps at 2 ^ 31), / nContentLength
                                       ▼
                                    *uPercent

    The product wraps as soon as 21474837 bytes have come, and from there on the percentage is
    wrong. -/

namespace UrlTraveler.Web
open Words

/-! ### The lengths of a transfer -/

/-- `TASK_TYPE`, with all its values. -/
inductive Transfer.TaskType where
  | download
  | query
  | upload
  | binary
  | head
  | butt
  deriving DecidableEq

/-- What `handle_process` reads of the `TaskInfo` about the transfer; the lengths are 64-bit. -/
structure TransferInfo where
  taskType : Transfer.TaskType
  contentLength : ℤ
  doneSize : ℤ
  allHdrLen : ℤ
  transferSpeed : ℤ
  remainTime : ℤ

/-- What the context holds of the transfer; the lengths are `int32`. -/
structure Transfer where
  nContentLength : ℤ
  nFinishedLength : ℤ
  nSpeed : ℤ
  nRemainedTime : ℤ
  deriving DecidableEq

/-- The part of `handle_process` about the transfer; an upload counts without its header. -/
def Transfer.onProcess (taskinfo : TransferInfo) (_ : Transfer) : Transfer :=
  let hdr := match taskinfo.taskType with
    | .upload | .binary => taskinfo.allHdrLen
    | .download | .query | .head | .butt => 0
  { nFinishedLength := int32 (taskinfo.doneSize - hdr)
    nContentLength := int32 (taskinfo.contentLength - hdr)
    nSpeed := uint32 taskinfo.transferSpeed
    nRemainedTime := uint32 taskinfo.remainTime }

/-! ### The query -/

/-- The variables of the caller; a pointer that is `NULL` is `none`. -/
structure Outs where
  uPercent : Option ℤ
  uTotalLength : Option ℤ
  uFinishedLength : Option ℤ
  uSpeed : Option ℤ
  uRemainedTime : Option ℤ
  deriving DecidableEq

/-- The value of `*uPercent`. -/
def percentage (t : Transfer) : ℤ :=
  if t.nContentLength = 0 then 0
  else uint32 (int32 ((int32 (t.nFinishedLength * 100)).tdiv t.nContentLength))

/-- `QueryDownloadProcess`: the result, the context and the variables afterwards. Without
    `uRemainedTime` it writes through that pointer all the same. -/
def queryDownloadProcess (pHttpContext : Option Transfer) (outs : Outs) :
    Option (Bool × Option Transfer × Outs) :=
  match pHttpContext with
  | none => some (false, none, outs)
  | some t =>
    let outs := { outs with uTotalLength := outs.uTotalLength.map fun _ => uint32 t.nContentLength }
    let outs :=
      { outs with uFinishedLength := outs.uFinishedLength.map fun _ => uint32 t.nFinishedLength }
    let outs := { outs with uPercent := outs.uPercent.map fun _ => percentage t }
    let (t, outs) := match outs.uSpeed with
      | some _ => (t, { outs with uSpeed := some t.nSpeed })
      | none => ({ t with nSpeed := 0 }, outs)
    match outs.uRemainedTime with
    | some _ => some (true, some t, { outs with uRemainedTime := some (int32 t.nRemainedTime) })
    | none => none

/-- What a query leaves in `*uPercent`. -/
def reported (t : Transfer) (outs : Outs) : Option ℤ :=
  (queryDownloadProcess (some t) outs).bind fun r => r.2.2.uPercent

/-- The percentage is the floor of the quotient, between 0 and 100, and no earlier state of the
    download was reported with more. -/
structure TruePercentage (t : Transfer) (outs : Outs) : Prop where
  floor : reported t outs = some (100 * t.nFinishedLength / t.nContentLength)
  range : ∀ p, reported t outs = some p → 0 ≤ p ∧ p ≤ 100
  mono : ∀ n, 0 ≤ n → n ≤ t.nFinishedLength → ∀ p q,
    reported { t with nFinishedLength := n } outs = some p → reported t outs = some q → p ≤ q

/-! ### The percentage -/

theorem reported_eq (t : Transfer) {outs : Outs} (hpercent : outs.uPercent ≠ none)
    (htime : outs.uRemainedTime ≠ none) : reported t outs = some (percentage t) := by
  obtain ⟨p, hp⟩ := Option.ne_none_iff_exists'.1 hpercent
  obtain ⟨r, hr⟩ := Option.ne_none_iff_exists'.1 htime
  cases hs : outs.uSpeed <;> simp [reported, queryDownloadProcess, hp, hr, hs]

/-- The quotient of two lengths. -/
theorem quotient_mem {f c : ℤ} (hc : 0 < c) (hf : 0 ≤ f) (hle : f ≤ c) :
    0 ≤ 100 * f / c ∧ 100 * f / c ≤ 100 := by
  refine ⟨Int.ediv_nonneg (by omega) hc.le, ?_⟩
  calc 100 * f / c ≤ 100 * c / c := Int.ediv_le_ediv hc (by omega)
    _ = 100 := Int.mul_ediv_cancel 100 hc.ne'

/-- As long as the product fits, the percentage is the quotient. -/
theorem percentage_of_lt {t : Transfer} (hc : 0 < t.nContentLength) (hf : 0 ≤ t.nFinishedLength)
    (hle : t.nFinishedLength ≤ t.nContentLength) (hfits : 100 * t.nFinishedLength < 2 ^ 31) :
    percentage t = 100 * t.nFinishedLength / t.nContentLength := by
  obtain ⟨h0, h100⟩ := quotient_mem hc hf hle
  have hprod : int32 (t.nFinishedLength * 100) = 100 * t.nFinishedLength := by
    rw [mul_comm, int32_of_mem (by omega) hfits]
  rw [percentage, if_neg hc.ne', hprod, Int.tdiv_eq_ediv_of_nonneg (by omega),
    int32_of_mem (by omega) (by omega), uint32_of_mem h0 (by omega)]

/-- A product that wraps has lost a multiple of `2 ^ 32`. -/
theorem int32_le_of_ge {n : ℤ} (h : 2 ^ 31 ≤ n) : int32 n ≤ n - 2 ^ 32 := by
  simp only [int32]
  omega

/-- Once the product wraps, the percentage is another number than the quotient. -/
theorem percentage_ne_of_ge {t : Transfer} (hc : 0 < t.nContentLength)
    (hmax : t.nContentLength < 2 ^ 31) (hf : 0 ≤ t.nFinishedLength)
    (hle : t.nFinishedLength ≤ t.nContentLength) (hwraps : 2 ^ 31 ≤ 100 * t.nFinishedLength) :
    percentage t ≠ 100 * t.nFinishedLength / t.nContentLength := by
  obtain ⟨h0, h100⟩ := quotient_mem hc hf hle
  rw [percentage, if_neg hc.ne', mul_comm t.nFinishedLength]
  set c := t.nContentLength
  set product := 100 * t.nFinishedLength
  have hlost : int32 product ≤ product - 2 ^ 32 := int32_le_of_ge hwraps
  have hlow := neg_le_int32 product
  have hrest : product < c * (product / c) + c := Int.lt_mul_ediv_self_add hc
  rcases le_or_gt 0 (int32 product) with hpos | hneg
  · -- the quotient has become smaller by more than one
    have hless : int32 product / c < product / c := by
      refine Int.ediv_lt_of_lt_mul hc ?_
      rw [mul_comm]
      omega
    have hnonneg : 0 ≤ int32 product / c := Int.ediv_nonneg hpos hc.le
    rw [Int.tdiv_eq_ediv_of_nonneg hpos, int32_of_mem (by omega) (by omega),
      uint32_of_mem hnonneg (by omega)]
    omega
  · -- the quotient is zero, or negative and a large number without its sign
    have hone : 1 ≤ product / c := by
      refine (Int.le_ediv_iff_mul_le hc).2 ?_
      omega
    have hquot : 0 ≤ -int32 product / c ∧ -int32 product / c ≤ 2 ^ 31 :=
      ⟨Int.ediv_nonneg (by omega) hc.le,
        (Int.ediv_le_self _ (by omega)).trans (by omega)⟩
    have htdiv : (int32 product).tdiv c = -(-int32 product / c) := by
      rw [← neg_neg (int32 product), Int.neg_tdiv, Int.tdiv_eq_ediv_of_nonneg (by omega), neg_neg]
    rw [htdiv]
    simp only [uint32, int32] at *
    omega

theorem not_truePercentage_of_ge {t : Transfer} {outs : Outs} (hpercent : outs.uPercent ≠ none)
    (htime : outs.uRemainedTime ≠ none) (hc : 0 < t.nContentLength)
    (hmax : t.nContentLength < 2 ^ 31) (hf : 0 ≤ t.nFinishedLength)
    (hle : t.nFinishedLength ≤ t.nContentLength) (hwraps : 2 ^ 31 ≤ 100 * t.nFinishedLength) :
    ¬ TruePercentage t outs := by
  intro h
  have hfloor := h.floor
  rw [reported_eq t hpercent htime, Option.some.injEq] at hfloor
  exact percentage_ne_of_ge hc hmax hf hle hwraps hfloor

theorem truePercentage_of_lt {t : Transfer} {outs : Outs} (hpercent : outs.uPercent ≠ none)
    (htime : outs.uRemainedTime ≠ none) (hc : 0 < t.nContentLength) (hf : 0 ≤ t.nFinishedLength)
    (hle : t.nFinishedLength ≤ t.nContentLength) (hfits : 100 * t.nFinishedLength < 2 ^ 31) :
    TruePercentage t outs := by
  have hself := percentage_of_lt hc hf hle hfits
  refine ⟨?_, ?_, ?_⟩
  · rw [reported_eq t hpercent htime, hself]
  · intro p hp
    rw [reported_eq t hpercent htime, Option.some.injEq] at hp
    rw [← hp, hself]
    exact quotient_mem hc hf hle
  · intro n hn hearlier p q hp hq
    rw [reported_eq _ hpercent htime, Option.some.injEq] at hp hq
    have hbefore := percentage_of_lt (t := { t with nFinishedLength := n }) hc hn (by dsimp; omega)
      (by dsimp; omega)
    rw [← hp, ← hq, hself, hbefore]
    exact Int.ediv_le_ediv hc (by dsimp; omega)

/-- The percentage is true exactly as long as the hundredfold of the finished length fits. -/
theorem truePercentage_iff (t : Transfer) (outs : Outs) (hpercent : outs.uPercent ≠ none)
    (htime : outs.uRemainedTime ≠ none) (hc : 0 < t.nContentLength)
    (hmax : t.nContentLength < 2 ^ 31) (hf : 0 ≤ t.nFinishedLength)
    (hle : t.nFinishedLength ≤ t.nContentLength) :
    TruePercentage t outs ↔ 100 * t.nFinishedLength < 2 ^ 31 := by
  constructor
  · intro h
    by_contra hwraps
    exact not_truePercentage_of_ge hpercent htime hc hmax hf hle (not_lt.1 hwraps) h
  · exact truePercentage_of_lt hpercent htime hc hf hle

/-- A download of 200 bytes, half way. -/
theorem truePercentage_half : TruePercentage ⟨200, 100, 0, 0⟩ ⟨some 0, none, none, none, some 0⟩ :=
  (truePercentage_iff ⟨200, 100, 0, 0⟩ ⟨some 0, none, none, none, some 0⟩ (by decide) (by decide)
    (by decide) (by decide) (by decide) (by decide)).2 (by decide)

/-- A file of 40000000 bytes that has come whole is reported with 4294967289 percent. -/
theorem reported_forty_million :
    ¬ ∀ (t : Transfer) (outs : Outs), outs.uPercent ≠ none → outs.uRemainedTime ≠ none →
      0 < t.nContentLength → t.nContentLength < 2 ^ 31 → 0 ≤ t.nFinishedLength →
      t.nFinishedLength ≤ t.nContentLength → TruePercentage t outs := by
  intro h
  have hfloor := (h ⟨40000000, 40000000, 0, 0⟩ ⟨some 0, none, none, none, some 0⟩ (by decide)
    (by decide) (by decide) (by decide) (by decide) (by decide)).floor
  revert hfloor
  decide

/-! ### A whole download -/

/-- The lengths of a download reach the context as they are. -/
theorem onProcess_download (taskinfo : TransferInfo) (htype : taskinfo.taskType = .download)
    (hf : 0 ≤ taskinfo.doneSize) (hle : taskinfo.doneSize ≤ taskinfo.contentLength)
    (hmax : taskinfo.contentLength < 2 ^ 31) (t : Transfer) :
    (t.onProcess taskinfo).nFinishedLength = taskinfo.doneSize ∧
      (t.onProcess taskinfo).nContentLength = taskinfo.contentLength := by
  simp only [Transfer.onProcess, htype, sub_zero]
  exact ⟨int32_of_mem (by omega) (by omega), int32_of_mem (by omega) hmax⟩

/-- A download is reported truly after each of its callbacks exactly when the hundredfold of its
    length fits. -/
theorem truePercentage_throughout_iff {c : ℤ} (hc : 0 < c) (hmax : c < 2 ^ 31) {outs : Outs}
    (hpercent : outs.uPercent ≠ none) (htime : outs.uRemainedTime ≠ none) (t : Transfer)
    (allHdrLen transferSpeed remainTime : ℤ) :
    (∀ doneSize, 0 ≤ doneSize → doneSize ≤ c → TruePercentage
      (t.onProcess ⟨.download, c, doneSize, allHdrLen, transferSpeed, remainTime⟩) outs) ↔
        100 * c < 2 ^ 31 := by
  constructor
  · intro h
    by_contra hwraps
    obtain ⟨hdone, hcontent⟩ := onProcess_download
      ⟨.download, c, c, allHdrLen, transferSpeed, remainTime⟩ rfl hc.le le_rfl hmax t
    refine not_truePercentage_of_ge hpercent htime ?_ ?_ ?_ ?_ ?_ (h c hc.le le_rfl) <;>
      simp only [hdone, hcontent] <;> omega
  · intro hfits doneSize hf hle
    obtain ⟨hdone, hcontent⟩ := onProcess_download
      ⟨.download, c, doneSize, allHdrLen, transferSpeed, remainTime⟩ rfl hf hle hmax t
    refine truePercentage_of_lt hpercent htime ?_ ?_ ?_ ?_ <;>
      simp only [hdone, hcontent] <;> omega

end UrlTraveler.Web
