import UrlTraveler.Transfer.Reports

/-! The size that a callback reports.

        directRecvData                  updateTaskInfo                   callback
        respSize += n     ──report──▶   doneSize  (+)= respSize  ──▶     respSize = 0
                                        with / without dataClean         with dataClean only

    The bytes that came in are those that are held and, with `dataClean`, those that were handed over
    before (`Counted`). It is `Rules` once more, on top of `limits`. -/

namespace UrlTraveler.Transfer
open Runs

/-- A task whose done size is that of its answer. -/
def TTask.fetches (t : TTask) : Prop := t.opts.task_type = .download ∨ t.opts.task_type = .query

/-- What the reports of an answer are made from. -/
def TTask.body (t : TTask) : Options × ℕ × ℕ × ℕ × Bool × Bool × Bool :=
  (t.opts, t.respSize, t.received, t.doneSize, t.respHeadCompleted, t.handle_headcomplete, t.del)

namespace TTask

@[simp] theorem body_tryConnect (t : TTask) (now newfd : ℕ) (ret : ConnectRet) (check : Bool) :
    (t.tryConnect now newfd ret check).2.body = t.body := by
  rw [tryConnect]
  split
  · rfl
  · cases ret
    · simp only [onConnected]
      split <;> rfl
    all_goals rfl

@[simp] theorem body_checkConnectTimeout (t : TTask) (now : ℕ) : (t.checkConnectTimeout now).2.body = t.body := by
  rw [checkConnectTimeout]
  split <;> rfl

@[simp] theorem body_tryAuth (t : TTask) (now : ℕ) (ok : Bool) : (t.tryAuth now ok).2.body = t.body := by
  have hproxy : (t.proxyAuth ok).2.body = t.body := by
    rw [proxyAuth]
    cases t.opts.proxy
    case sock5 =>
      rcases t.socksInit with _ | _
      · rfl
      · cases ok <;> rfl
    all_goals rfl
  rw [tryAuth]
  rcases hp : t.proxyAuth ok with ⟨_ | _ | _ | _, t'⟩ <;> rw [hp] at hproxy <;> exact hproxy

@[simp] theorem body_onConnected (t : TTask) (now : ℕ) (ok : Bool) : (t.onConnected now ok).body = t.body := by
  rw [onConnected]
  split <;> rfl

@[simp] theorem body_onAuthResp (t : TTask) (now : ℕ) (ret : AuthRet) : (t.onAuthResp now ret).2.body = t.body := by
  cases ret <;> rfl

@[simp] theorem body_sendHttpReq (t : TTask) (now : ℕ) (build : Except BuildFail ℕ) (send : SendRet) :
    (t.sendHttpReq now build send).2.body = t.body := by
  cases build
  · rfl
  · cases send <;> rfl

@[simp] theorem body_sendHttpReqContinue (t : TTask) (now : ℕ) (send : SendRet) :
    (t.sendHttpReqContinue now send).2.body = t.body := by
  cases send <;> rfl

/-- What a report says of an answer. -/
theorem doneSize_updateTaskInfo {t : TTask} (hfetch : t.fetches) (hst : t.taskState ≠ .error) :
    t.updateTaskInfo.doneSize = (if t.opts.dataClean then t.doneSize + t.respSize else t.respSize) ∧
      (t.opts.dataClean = true → t.updateTaskInfo.dataChanged = false → t.respSize = 0) := by
  rw [updateTaskInfo, if_neg hst]
  rcases hfetch with h | h <;> rcases t.opts.dataClean with _ | _ <;> simp [h]

theorem doneSize_updateTaskInfo_zero {t : TTask} (hfetch : t.fetches) (hdone : t.doneSize = 0)
    (hresp : t.respSize = 0) : t.updateTaskInfo.doneSize = 0 := by
  by_cases hst : t.taskState = .error
  · rw [updateTaskInfo, if_pos hst]
    exact hdone
  · rw [(doneSize_updateTaskInfo hfetch hst).1, hdone, hresp]
    split <;> rfl

end TTask

/-- The bytes that came in are those that are held and those that were handed over. -/
structure Counted (t : TTask) : Prop where
  kept : t.opts.dataClean = false → t.respSize = t.received
  cleaned : t.opts.dataClean = true → t.opts.handle_process = true → t.fetches →
    t.doneSize + t.respSize = t.received
  fresh : t.respHeadCompleted = false → t.received = 0 ∧ t.respSize = 0 ∧ (t.fetches → t.doneSize = 0)
  told : t.respHeadCompleted = true → t.handle_headcomplete = true → t.del = true ∨ t.opts.task_type = .head

namespace Counted

variable {t t' : TTask}

theorem of_body (h : Counted t) (hbody : t'.body = t.body) : Counted t' := by
  simp only [TTask.body, Prod.mk.injEq] at hbody
  obtain ⟨hopts, hresp, hrecv, hdone, hhead, hhandle, hdel⟩ := hbody
  refine ⟨?_, ?_, ?_, ?_⟩
  · rw [hopts, hresp, hrecv]
    exact h.kept
  · rw [TTask.fetches, hopts, hdone, hresp, hrecv]
    exact h.cleaned
  · rw [TTask.fetches, hopts, hhead, hdone, hresp, hrecv]
    exact h.fresh
  · rw [hopts, hhead, hhandle, hdel]
    exact h.told

/-- More of the body comes in. -/
theorem getRealData (h : Counted t) (hhead : t.respHeadCompleted = true) (now : ℕ) (recv : TTask.RecvRet) :
    Counted (t.getRealData now recv).2 ∧ (t.getRealData now recv).2.del = t.del ∧
      (t.getRealData now recv).2.handle_headcomplete = t.handle_headcomplete ∧
      (t.getRealData now recv).2.opts = t.opts := by
  rw [TTask.getRealData]
  generalize (if 0 < t.contentLength ∧ t.opts.task_type = .download ∧ t.doneSize < t.contentLength then
    t.contentLength - t.doneSize else 0) = needSize
  have hrecv : Counted (t.directRecvData needSize recv).2 ∧ (t.directRecvData needSize recv).2.del = t.del ∧
      (t.directRecvData needSize recv).2.handle_headcomplete = t.handle_headcomplete ∧
      (t.directRecvData needSize recv).2.opts = t.opts := by
    rcases recv with n | - | -
    · have hmore : Counted { t with respSize := t.respSize + n, received := t.received + n } := by
        refine ⟨fun hc => ?_, fun hc hp hf => ?_, fun hno => ?_, h.told⟩
        · exact congrArg (· + n) (h.kept hc)
        · exact (Nat.add_assoc ..).symm.trans (congrArg (· + n) (h.cleaned hc hp hf))
        · exact Bool.noConfusion (hhead.symm.trans hno)
      rw [TTask.directRecvData]
      split <;> exact ⟨hmore, rfl, rfl, rfl⟩
    · exact ⟨h, rfl, rfl, rfl⟩
    · exact ⟨h, rfl, rfl, rfl⟩
  rcases hd : t.directRecvData needSize recv with ⟨ret, t'⟩
  rw [hd] at hrecv
  obtain ⟨hcount, hdel, hhandle, hopts⟩ := hrecv
  rcases ret with - | - | - | - | - | - | - <;> exact ⟨hcount.of_body rfl, hdel, hhandle, hopts⟩

/-- An answer is read: the bytes stay counted, and the head is told of before the body comes in. -/
theorem processHttpResp (h : Counted t) (now : ℕ) (head : TTask.HeadRet) (recv : TTask.RecvRet) :
    let r := t.processHttpResp now head recv
    if (r.1 = .ok ∨ r.1 = .continue) ∧ (!r.2.del && r.2.respHeadCompleted && r.2.handle_headcomplete) = true then
      r.2.opts.task_type = .head ∧ Counted r.2 ∨
        r.2.received = 0 ∧ r.2.respSize = 0 ∧ (r.2.fetches → r.2.doneSize = 0)
    else Counted r.2 := by
  rw [TTask.processHttpResp]
  rcases hhead : t.respHeadCompleted with _ | _
  · have hfresh := h.fresh hhead
    have hsame : ∀ (ret : TTask.RespRet) (t' : TTask), t'.body = t.body →
        if (ret = .ok ∨ ret = .continue) ∧ (!t'.del && t'.respHeadCompleted && t'.handle_headcomplete) = true then
          t'.opts.task_type = .head ∧ Counted t' ∨
            t'.received = 0 ∧ t'.respSize = 0 ∧ (t'.fetches → t'.doneSize = 0)
        else Counted t' := by
      intro ret t' hbody
      have hno : t'.respHeadCompleted = false := by
        simp only [TTask.body, Prod.mk.injEq] at hbody
        rw [hbody.2.2.2.2.1, hhead]
      rw [if_neg (by simp [hno])]
      exact h.of_body hbody
    rw [if_neg Bool.false_ne_true]
    rcases head with n | (_ | _) | ntlm | - | - | -
    · simp only [TTask.processHttpRespHead]
      generalize (if n = 0 then (-1 : ℤ) else (n : ℤ)) = len
      split
      · rw [if_neg (by simp)]
        exact ⟨h.kept, h.cleaned, fun hno => Bool.noConfusion hno, fun _ _ => .inr ‹_›⟩
      · split
        · exact .inr hfresh
        · rename_i htell
          refine ⟨h.kept, h.cleaned, fun hno => Bool.noConfusion hno, fun _ hhandle => .inl ?_⟩
          by_contra hdel
          refine htell ⟨.inl rfl, ?_⟩
          simp only [Bool.and_eq_true, Bool.not_eq_true']
          exact ⟨⟨Bool.eq_false_iff.mpr hdel, trivial⟩, hhandle⟩
    · exact hsame _ _ rfl
    · exact hsame _ _ rfl
    · simp only [TTask.processHttpRespHead]
      split <;> exact hsame _ _ rfl
    all_goals exact hsame _ _ rfl
  · rw [if_pos rfl]
    obtain ⟨hcount, hdel, hhandle, hopts⟩ := h.getRealData hhead now recv
    dsimp only
    split
    · rename_i htell
      have htell := htell.2
      simp only [Bool.and_eq_true, Bool.not_eq_true'] at htell
      rw [hdel, hhandle] at htell
      rcases h.told hhead htell.2 with hgone | htype
      · exact Bool.noConfusion (htell.1.1.symm.trans hgone)
      · exact .inl ⟨by rw [hopts, htype], hcount⟩
    · exact hcount

end Counted

structure Measured (t : TTask) : Prop where
  healthy : Healthy t
  counted : Counted t

theorem Measured.of_body {t t' : TTask} (h : Measured t) (hhealthy : Healthy t') (hbody : t'.body = t.body) :
    Measured t' :=
  ⟨hhealthy, h.counted.of_body hbody⟩

/-- The done size of a report is the number of bytes that came in. -/
def TTask.Exact (t : TTask) : Prop :=
  t.fetches → (t.opts.dataClean = true → t.opts.handle_process = true) → t.doneSize = t.received

structure Reported (h : Handler) (t : TTask) : Prop where
  handler : h ≠ .init
  exact : h ≠ .error → t.Exact
  resumes : h = .process → Measured (if t.opts.dataClean then { t with respSize := 0 } else t)

/-- A report on a task that is not at an error. -/
theorem Measured.updateTaskInfo {t : TTask} (h : Measured t) (hst : t.taskState ≠ .error) :
    t.updateTaskInfo.Exact ∧
      Measured (if t.opts.dataClean then { t.updateTaskInfo with respSize := 0 } else t.updateTaskInfo) ∧
      (¬ (t.opts.handle_process = true ∧ t.updateTaskInfo.dataChanged = true) → Measured t.updateTaskInfo) := by
  have hhealthy := h.healthy.updateTaskInfo
  have hdone := fun hfetch => TTask.doneSize_updateTaskInfo (t := t) hfetch hst
  have hzero := fun hfetch => TTask.doneSize_updateTaskInfo_zero (t := t) hfetch
  obtain ⟨d, c, heq⟩ := t.updateTaskInfo_eq
  rw [heq] at hhealthy hdone hzero ⊢
  have hkept := h.counted.kept
  have hcleaned := h.counted.cleaned
  have hfresh : t.respHeadCompleted = false → t.received = 0 ∧ t.respSize = 0 ∧ (t.fetches → d = 0) := by
    intro hno
    obtain ⟨hrecv, hresp, hd⟩ := h.counted.fresh hno
    exact ⟨hrecv, hresp, fun hf => hzero hf (hd hf) hresp⟩
  have hexact : t.fetches → (t.opts.dataClean = true → t.opts.handle_process = true) → d = t.received := by
    intro hf hp
    have hd := (hdone hf).1
    rcases hc : t.opts.dataClean with _ | _
    · rw [hc, if_neg Bool.false_ne_true] at hd
      exact hd.trans (hkept hc)
    · rw [hc, if_pos rfl] at hd
      exact hd.trans (hcleaned hc (hp hc) hf)
  refine ⟨hexact, ?_, fun hsilent => ⟨hhealthy, hkept, fun hc hp hf => ?_, hfresh, h.counted.told⟩⟩
  · split
    · rename_i hc
      refine ⟨hhealthy.same rfl rfl rfl rfl rfl, fun hno => Bool.noConfusion (hno.symm.trans hc),
        fun _ hp hf => hexact hf fun _ => hp, fun hno => ?_, h.counted.told⟩
      exact ⟨(hfresh hno).1, rfl, (hfresh hno).2.2⟩
    · rename_i hc
      exact ⟨hhealthy, hkept, fun hyes => absurd hyes hc, hfresh, h.counted.told⟩
  · have hsame : c = false := Bool.eq_false_iff.mpr fun hyes => hsilent ⟨hp, hyes⟩
    have hresp := (hdone hf).2 hc hsame
    change d + t.respSize = t.received
    rw [hresp, Nat.add_zero]
    exact hexact hf fun _ => hp

theorem Measured.cancel {t : TTask} (h : Measured t) : Measured { t with del := true } :=
  ⟨limits.cancel t h.healthy, h.counted.kept, h.counted.cleaned, h.counted.fresh, fun _ _ => .inl rfl⟩

/-- The head is told of when nothing of the body is there yet. -/
theorem Measured.read {t₀ t : TTask} (h : Measured t₀) (hopen : t₀.taskState.open) (now : ℕ)
    (head : TTask.HeadRet) (recv : TTask.RecvRet) (ht : t = t₀ ∨ ∃ ret, t = (t₀.sendHttpReqContinue now ret).2) :
    let r := t.processHttpResp now head recv
    if (r.1 = .ok ∨ r.1 = .continue) ∧ (!r.2.del && r.2.respHeadCompleted && r.2.handle_headcomplete) = true then
      Reported .headcomplete r.2.updateTaskInfo ∧ Measured { r.2.updateTaskInfo with handle_headcomplete := false }
    else Measured r.2 := by
  have hhealthy := h.healthy.read hopen now head recv ht
  have hcounted : Counted t := by
    rcases ht with rfl | ⟨ret, rfl⟩
    · exact h.counted
    · exact h.counted.of_body (t₀.body_sendHttpReqContinue now ret)
  have hread := hcounted.processHttpResp now head recv
  rcases hr : t.processHttpResp now head recv with ⟨ret, t'⟩
  rw [hr] at hhealthy hread
  dsimp only at hhealthy hread ⊢
  split
  · rename_i htell
    rw [if_pos htell] at hread
    have hhead : t'.respHeadCompleted = true := (Bool.and_eq_true_iff.mp (Bool.and_eq_true_iff.mp htell.2).1).2
    have hreport := hhealthy.updateTaskInfo
    have hzero := fun hfetch => TTask.doneSize_updateTaskInfo_zero (t := t') hfetch
    obtain ⟨d, c, heq⟩ := t'.updateTaskInfo_eq
    rw [heq] at hreport hzero ⊢
    have hkept : t'.opts.dataClean = false → t'.respSize = t'.received := by
      rcases hread with ⟨-, hcount⟩ | ⟨hrecv, hresp, -⟩
      · exact hcount.kept
      · exact fun _ => hresp.trans hrecv.symm
    have hnone : t'.fetches → d = t'.received ∧ t'.respSize = 0 := by
      intro hf
      rcases hread with ⟨htype, -⟩ | ⟨hrecv, hresp, hdone⟩
      · rcases hf with hf | hf <;> cases htype.symm.trans hf
      · exact ⟨(hzero hf (hdone hf) hresp).trans hrecv.symm, hresp⟩
    refine ⟨⟨Handler.noConfusion, fun _ hf _ => (hnone hf).1, fun hp => Handler.noConfusion hp⟩,
      hreport.same rfl rfl rfl rfl rfl, hkept, fun _ _ hf => ?_, fun hno => ?_, fun _ hyes => Bool.noConfusion hyes⟩
    · obtain ⟨hd, hresp⟩ := hnone hf
      change d + t'.respSize = t'.received
      rw [hresp, Nat.add_zero, hd]
    · exact Bool.noConfusion (hhead.symm.trans hno)
  · rename_i htell
    rw [if_neg htell] at hread
    exact ⟨hhealthy, hread⟩

theorem progress : Rules Measured Reported where
  create id o now :=
    ⟨limits.create id o now, fun _ => rfl, fun _ _ _ => rfl, fun _ => ⟨rfl, rfl, fun _ => rfl⟩,
      fun h => Bool.noConfusion h⟩
  cancel t h := h.cancel
  cancelCall hd t h := by
    refine ⟨h.handler, h.exact, fun hp => ?_⟩
    have hresume := h.resumes hp
    by_cases hc : t.opts.dataClean = true
    · rw [if_pos hc] at hresume ⊢
      exact hresume.cancel
    · rw [if_neg hc] at hresume ⊢
      exact hresume.cancel
  timeout t h hst := h.of_body (limits.timeout t h.healthy hst) rfl
  activate t h hst := h.of_body (limits.activate t h.healthy hst) rfl
  connect t now newfd ret check h hst :=
    h.of_body (limits.connect t now newfd ret check h.healthy hst) (t.body_tryConnect ..)
  connectTimeout t now h hst := h.of_body (limits.connectTimeout t now h.healthy hst) (t.body_checkConnectTimeout now)
  auth t now ok h hst := h.of_body (limits.auth t now ok h.healthy hst) (t.body_tryAuth now ok)
  exceed t h hst hle := h.of_body (limits.exceed t h.healthy hst hle) rfl
  send t now build ret h hst hinfo :=
    h.of_body (limits.send t now build ret h.healthy hst hinfo) (t.body_sendHttpReq now build ret)
  init t h hst hinfo := absurd ((h.healthy.info (by rw [hst])).symm.trans hinfo) Bool.noConfusion
  initDone t h := absurd rfl h.handler
  process t h hst := by
    obtain ⟨hexact, hresume, hsilent⟩ := h.updateTaskInfo (by rw [hst]; exact TaskStatus.noConfusion)
    split
    · refine ⟨Handler.noConfusion, fun _ => hexact, fun _ => ?_⟩
      have hclean : t.updateTaskInfo.opts.dataClean = t.opts.dataClean := by rw [t.opts_updateTaskInfo]
      rw [hclean]
      exact hresume
    · exact hsilent ‹_›
  processDone t h := h.resumes rfl
  finish t h hst :=
    ⟨Handler.noConfusion, fun _ => (h.updateTaskInfo (by rw [hst]; exact TaskStatus.noConfusion)).1,
      fun hp => Handler.noConfusion hp⟩
  error t h hst := ⟨Handler.noConfusion, fun hne => absurd rfl hne, fun hp => Handler.noConfusion hp⟩
  unknown t h hst := absurd hst h.healthy.known
  connected t now ok h hst := h.of_body (limits.connected t now ok h.healthy hst) (t.body_onConnected now ok)
  authResp t now ret h hst := h.of_body (limits.authResp t now ret h.healthy hst) (t.body_onAuthResp now ret)
  sendMore t now ret h hopen :=
    h.of_body (limits.sendMore t now ret h.healthy hopen) (t.body_sendHttpReqContinue now ret)
  read t₀ t now head recv h hopen ht := h.read hopen now head recv ht

/-- The done size that a callback of a download or a query reports, an error apart, is the number of bytes of
    the body that have come in; with `dataClean` this needs the process callback. -/
def State.Measures (s : State) : Prop :=
  ∀ h pos t, .called h pos t ∈ s.history → h ≠ .error → t.Exact

theorem progress_measured (n : ℕ) (as : List Act) : ∀ s ∈ states step (start n) as, s.Measures :=
  fun s hs h pos t hcalled hne => ((progress.states n as s hs).told h pos t hcalled).exact hne

theorem progress_measured_two : (Option.get _ twoTransfers_runs).Measures :=
  progress_measured 32 twoTransfers _ (mem_states_foldlM (Option.some_get twoTransfers_runs).symm)

end UrlTraveler.Transfer
