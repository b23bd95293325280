import UrlTraveler.Transfer.Callbacks

/-! What the callbacks report.

    `P` holds of a task between the worker's steps, `Q h` of a task whose callback `h` is next. When
    the operations on one task keep them (`Rules`), every run does, and every callback reports a task
    with `Q`. The first instance is `limits`: three connections, and so two redirections, are all a
    transfer gets. -/

namespace UrlTraveler.Transfer
open Runs

/-- The callback that is next for the slot. -/
def Pc.calling : Pc → ℕ → Option Handler
  | .call h j _ _, i => if i = j then some h else none
  | _, _ => none

/-- A status in which `scanIO` looks at the task's socket. -/
def TaskStatus.open (st : TaskStatus) : Prop := TaskStatus.connectWait.rank ≤ st.rank ∧ st.rank ≤ TaskStatus.running.rank

instance (st : TaskStatus) : Decidable st.open := inferInstanceAs (Decidable (_ ∧ _))

structure Rules (P : TTask → Prop) (Q : Handler → TTask → Prop) : Prop where
  create : ∀ id o now, P (.create id o now)
  cancel : ∀ t, P t → P { t with del := true }
  cancelCall : ∀ h t, Q h t → Q h { t with del := true }
  timeout : ∀ t, P t → t.taskState ≠ .idle → P (t.fail .timeout)
  activate : ∀ t, P t → t.taskState = .idle → P { t with taskState := .connect }
  connect : ∀ t now newfd ret check, P t → t.taskState = .connect → P (t.tryConnect now newfd ret check).2
  connectTimeout : ∀ t now, P t → t.taskState = .connectWait → P (t.checkConnectTimeout now).2
  auth : ∀ t now ok, P t → t.taskState = .auth → P (t.tryAuth now ok).2
  exceed : ∀ t, P t → t.taskState = .start → maxRedirections ≤ t.redirectionTimes → P (t.fail .redirectionExceed)
  send : ∀ t now build ret, P t → t.taskState = .start → t.shouldGetFileInfo = true → P (t.sendHttpReq now build ret).2
  init : ∀ t, P t → t.taskState = .start → t.shouldGetFileInfo = false →
    if t.opts.handle_init then Q .init t.updateTaskInfo else P t.updateTaskInfo
  initDone : ∀ t, Q .init t → P t
  process : ∀ t, P t → t.taskState = .running →
    if t.opts.handle_process ∧ t.updateTaskInfo.dataChanged then Q .process t.updateTaskInfo else P t.updateTaskInfo
  processDone : ∀ t, Q .process t → P (if t.opts.dataClean then { t with respSize := 0 } else t)
  finish : ∀ t, P t → t.taskState = .finished → Q .finish t.updateTaskInfo
  error : ∀ t, P t → t.taskState = .error → Q .error t.updateTaskInfo
  unknown : ∀ t, P t → t.taskState = .unknown → 
    Q .error (TTask.updateTaskInfo { t with taskState := .unknown, errcode := .unknownStatus })
  connected : ∀ t now ok, P t → t.taskState = .connectWait → P (t.onConnected now ok)
  authResp : ∀ t now ret, P t → t.taskState = .auth → P (t.onAuthResp now ret).2
  sendMore : ∀ t now ret, P t → t.taskState.open → P (t.sendHttpReqContinue now ret).2
  read : ∀ t₀ t now head recv, P t₀ → t₀.taskState.open → (t = t₀ ∨ ∃ ret, t = (t₀.sendHttpReqContinue now ret).2) →
    let r := t.processHttpResp now head recv
    if (r.1 = .ok ∨ r.1 = .continue) ∧ (!r.2.del && r.2.respHeadCompleted && r.2.handle_headcomplete) = true then
      Q .headcomplete r.2.updateTaskInfo ∧ P { r.2.updateTaskInfo with handle_headcomplete := false }
    else P r.2

/-- The tasks in the queue and the callbacks that were made are as `P` and `Q` say. -/
structure Held (P : TTask → Prop) (Q : Handler → TTask → Prop) (s : State) : Prop where
  tasks : ∀ i t, s.taskQue i = some t → ¬ s.pc.clearing i →
    match s.pc.calling i with | some h => Q h t | none => P t
  taken : ∀ i, s.taskQue i = none → s.pc.calling i = none
  scanned : ∀ i, s.pc.calling i ≠ some .headcomplete
  told : ∀ h pos t, .called h pos t ∈ s.history → Q h t

variable {P : TTask → Prop} {Q : Handler → TTask → Prop} {s s' : State}

/-! ### One slot changes -/

/-- No callback is under way. -/
def Pc.idle (pc : Pc) : Prop := (∀ i, pc.calling i = none) ∧ ∀ i, ¬ pc.clearing i

theorem Held.all (hh : Held P Q s) (hpc : s.pc.idle) (i : ℕ) (t : TTask) (ht : s.taskQue i = some t) : P t := by
  have := hh.tasks i t ht (hpc.2 i)
  rwa [hpc.1 i] at this

theorem Held.of_all (hall : ∀ i t, s.taskQue i = some t → P t) (hpc : s.pc.idle)
    (htold : ∀ h pos t, .called h pos t ∈ s.history → Q h t) : Held P Q s := by
  refine ⟨fun i t ht _ => ?_, fun i _ => hpc.1 i, fun i => by rw [hpc.1 i]; exact (Option.some_ne_none _).symm, htold⟩
  rw [hpc.1 i]
  exact hall i t ht

/-- The slot that changes is the only one that a callback can be next for. -/
theorem Held.put (hall : ∀ j t, s.taskQue j = some t → P t) (htold : ∀ h pos t, .called h pos t ∈ s'.history → Q h t)
    {i : ℕ} {t' : TTask} (hque : s'.taskQue = Function.update s.taskQue i (some t'))
    (hother : ∀ j, j ≠ i → s'.pc.calling j = none)
    (hhead : s'.pc.calling i ≠ some .headcomplete)
    (hslot : ¬ s'.pc.clearing i → match s'.pc.calling i with | some h => Q h t' | none => P t') : Held P Q s' := by
  refine ⟨fun j t ht hclear => ?_, fun j hj => hother j ?_, fun j => ?_, htold⟩
  · rw [hque] at ht
    rcases eq_or_ne j i with rfl | hne
    · rw [Function.update_self] at ht
      cases ht
      exact hslot hclear
    · rw [Function.update_of_ne hne] at ht
      rw [hother j hne]
      exact hall j t ht
  · rintro rfl
    rw [hque, Function.update_self] at hj
    cases hj
  · rcases eq_or_ne j i with rfl | hne
    · exact hhead
    · rw [hother j hne]
      exact (Option.some_ne_none _).symm

theorem all_put (hall : ∀ j t, s.taskQue j = some t → P t) {i : ℕ} {t' : TTask} (ht' : P t') :
    ∀ j t, (s.put i (some t')).taskQue j = some t → P t := by
  intro j t ht
  rcases eq_or_ne j i with rfl | hne
  · rw [State.taskQue_put] at ht
    cases ht
    exact ht'
  · exact hall j t ((Function.update_of_ne hne ..).symm.trans ht)

theorem State.put_self (s : State) {i : ℕ} {t : TTask} (ht : s.taskQue i = some t) :
    s.taskQue = Function.update s.taskQue i (some t) := by
  rw [← ht, Function.update_eq_self]

namespace State

@[simp] theorem taskQue_watchWrite (s : State) (t : TTask) : (s.watchWrite t).taskQue = s.taskQue := by
  rw [watchWrite]
  split <;> rfl

@[simp] theorem taskQue_mapSocket (s : State) (i : ℕ) (t : TTask) : (s.mapSocket i t).taskQue = s.taskQue := by
  rw [mapSocket]
  split <;> rfl

@[simp] theorem taskQue_scanConnect (s : State) (e : Env) (i : ℕ) (t : TTask) :
    (s.scanConnect e i t).taskQue =
      Function.update s.taskQue i (some (t.tryConnect e.now e.newfd e.connect e.check).2) := by
  rw [scanConnect]
  rcases t.tryConnect e.now e.newfd e.connect e.check with ⟨- | - | - | - | - | -, t'⟩
  · rfl
  · exact taskQue_mapSocket ..
  · exact (taskQue_watchWrite ..).trans (taskQue_mapSocket ..)
  all_goals rfl

@[simp] theorem taskQue_scanConnectWait (s : State) (e : Env) (i : ℕ) (t : TTask) :
    (s.scanConnectWait e i t).taskQue = Function.update s.taskQue i (some (t.checkConnectTimeout e.now).2) := by
  rw [scanConnectWait]
  rcases t.checkConnectTimeout e.now with ⟨_ | _, t'⟩
  · rfl
  · cases t.fd <;> rfl

@[simp] theorem taskQue_scanAuth (s : State) (e : Env) (i : ℕ) (t : TTask) :
    (s.scanAuth e i t).taskQue = Function.update s.taskQue i (some (t.tryAuth e.now e.auth).2) := by
  rw [scanAuth]
  dsimp only
  split
  · exact taskQue_watchRead ..
  · rfl

@[simp] theorem taskQue_scanSend (s : State) (e : Env) (i : ℕ) (t : TTask) :
    (s.scanSend e i t).taskQue = Function.update s.taskQue i (some (t.sendHttpReq e.now e.build e.send).2) := by
  rw [scanSend]
  rcases t.sendHttpReq e.now e.build e.send with ⟨n | n | -, t'⟩
  · exact taskQue_watchRead ..
  · exact taskQue_watchWrite ..
  · rfl

@[simp] theorem taskQue_clearTaskInfo (s : State) (i : ℕ) :
    (s.clearTaskInfo i).taskQue = Function.update s.taskQue i none := by
  rw [clearTaskInfo]
  rcases ht : s.taskQue i with - | t
  · exact (Function.update_eq_self_iff.mpr ht.symm).symm
  · dsimp only
    cases t.fd <;> rfl

end State

/-! ### The worker keeps what the operations keep -/

namespace Rules

variable (hr : Rules P Q)
include hr

/-- The switch of `scanTaskQue`: the scan goes on with a good task, or its callback is next. -/
theorem scanTask (e : Env) {i : ℕ} {t : TTask} (ht : s.taskQue i = some t) (hP : P t) (remain : ℕ) (c : Counts) :
    ∃ t' remain' c', (s.scanTask e i t remain c).taskQue = Function.update s.taskQue i (some t') ∧
      ((s.scanTask e i t remain c).pc = .scan (i + 1) remain' c' ∧ P t' ∨
        ∃ h, (s.scanTask e i t remain c).pc = .call h i remain' c' ∧ h ≠ .headcomplete ∧ Q h t') := by
  rw [State.scanTask]
  rcases hst : t.taskState with - | - | - | - | - | - | - | - | -
  · dsimp only
    split
    · exact ⟨_, _, _, rfl, .inl ⟨rfl, hr.activate t hP hst⟩⟩
    · exact ⟨t, _, _, s.put_self ht, .inl ⟨rfl, hP⟩⟩
  · exact ⟨_, _, _, s.taskQue_scanConnect .., .inl ⟨rfl, hr.connect t _ _ _ _ hP hst⟩⟩
  · exact ⟨_, _, _, s.taskQue_scanConnectWait .., .inl ⟨rfl, hr.connectTimeout t _ hP hst⟩⟩
  · exact ⟨_, _, _, s.taskQue_scanAuth .., .inl ⟨rfl, hr.auth t _ _ hP hst⟩⟩
  · dsimp only
    split
    · exact ⟨_, _, _, rfl, .inl ⟨rfl, hr.exceed t hP hst ‹_›⟩⟩
    · by_cases hinfo : t.shouldGetFileInfo = true
      · rw [if_pos hinfo]
        exact ⟨_, _, _, s.taskQue_scanSend .., .inl ⟨rfl, hr.send t _ _ _ hP hst hinfo⟩⟩
      · rw [if_neg hinfo]
        have hinit := hr.init t hP hst (Bool.eq_false_iff.mpr hinfo)
        by_cases hhandle : t.opts.handle_init = true
        · rw [if_pos hhandle] at hinit
          exact ⟨_, remain, { c with starting := c.starting + 1 }, rfl, .inr ⟨.init, if_pos hhandle, Handler.noConfusion, hinit⟩⟩
        · rw [if_neg hhandle] at hinit
          exact ⟨_, remain, { c with starting := c.starting + 1 }, rfl, .inl ⟨if_neg hhandle, hinit⟩⟩
  · have hprocess := hr.process t hP hst
    by_cases htell : t.opts.handle_process = true ∧ t.updateTaskInfo.dataChanged = true
    · rw [if_pos htell] at hprocess
      refine ⟨_, remain, { c with running := c.running + 1 }, rfl, .inr ⟨.process, if_pos ?_, Handler.noConfusion, hprocess⟩⟩
      exact ⟨(t.opts_updateTaskInfo ▸ htell.1), htell.2⟩
    · rw [if_neg htell] at hprocess
      refine ⟨_, remain, { c with running := c.running + 1 }, rfl, .inl ⟨if_neg ?_, hprocess⟩⟩
      rwa [t.opts_updateTaskInfo]
  · exact ⟨_, _, _, rfl, .inr ⟨.finish, rfl, Handler.noConfusion, hr.finish t hP hst⟩⟩
  · exact ⟨_, _, _, rfl, .inr ⟨.error, rfl, Handler.noConfusion, hr.error t hP hst⟩⟩
  · exact ⟨_, _, _, rfl, .inr ⟨.error, rfl, Handler.noConfusion, hr.unknown t hP hst⟩⟩

theorem scanStep (hh : Held P Q s) (e : Env) (i remain : ℕ) (c : Counts) (hpc : s.pc = .scan i remain c) :
    Held P Q (s.scanStep e i remain c) := by
  have hall := hh.all (by rw [hpc]; exact ⟨fun _ => rfl, fun _ => id⟩)
  have hidle : ∀ {s' : State}, s'.taskQue = s.taskQue → s'.history = s.history → s'.pc.idle → Held P Q s' := by
    intro s' hque hhist hidle
    exact Held.of_all (hque ▸ hall) hidle (hhist ▸ hh.told)
  rw [State.scanStep]
  split
  · exact hidle rfl rfl ⟨fun _ => rfl, fun _ => id⟩
  split
  · exact hidle rfl rfl ⟨fun _ => rfl, fun _ => id⟩
  rcases ht : s.taskQue i with - | t
  · exact hidle rfl rfl ⟨fun _ => rfl, fun _ => id⟩
  have htime : P (if t.taskState = .idle then t else t.checkTimeOut e.now) := by
    split
    · exact hall i t ht
    · rw [TTask.checkTimeOut]
      split
      · exact hr.timeout t (hall i t ht) ‹_›
      · exact hall i t ht
  dsimp only
  generalize (if t.taskState = .idle then t else t.checkTimeOut e.now) = t₁ at htime ⊢
  split
  · exact Held.put (i := i) hall hh.told rfl (fun _ _ => rfl) (Option.some_ne_none _).symm fun h => absurd rfl h
  · have hput : (s.put i (some t₁)).taskQue i = some t₁ := s.taskQue_put ..
    have hhist := (Same.scanTask e hput remain c).1.history
    obtain ⟨t', remain', c', hque, ⟨hgo, hP⟩ | ⟨h, hcall, hne, hQ⟩⟩ := hr.scanTask e hput htime remain c
    all_goals
      rw [show (s.put i (some t₁)).taskQue = Function.update s.taskQue i (some t₁) from rfl,
        Function.update_idem] at hque
    · refine Held.put hall (hhist ▸ hh.told) hque (fun _ _ => by rw [hgo]; rfl) (by rw [hgo]; exact (Option.some_ne_none _).symm) fun _ => ?_
      rw [hgo]
      exact hP
    · have hnext : Pc.calling (.call h i remain' c') i = some h := if_pos rfl
      refine Held.put hall (hhist ▸ hh.told) hque (fun j hj => by rw [hcall]; exact if_neg hj) ?_ fun _ => ?_
      · rw [hcall, hnext]
        exact fun hhead => hne (Option.some.inj hhead)
      · rw [hcall, hnext]
        exact hQ

theorem callStep (hh : Held P Q s) (h : Handler) (i remain : ℕ) (c : Counts) (hpc : s.pc = .call h i remain c) :
    Held P Q (s.callStep h i remain c) := by
  have hclear : ∀ j, ¬ s.pc.clearing j := fun j => by rw [hpc]; exact id
  have hrest : ∀ j, j ≠ i → ∀ t, s.taskQue j = some t → P t := by
    intro j hj t ht
    have := hh.tasks j t ht (hclear j)
    rwa [hpc, Pc.calling, if_neg hj] at this
  rw [State.callStep]
  rcases ht : s.taskQue i with - | t
  · refine Held.of_all (fun j t' ht' => hrest j ?_ t' ht') ⟨fun _ => rfl, fun _ => id⟩ hh.told
    rintro rfl
    rw [show s.taskQue j = some t' from ht'] at ht
    cases ht
  have hQ : Q h t := by
    have := hh.tasks i t ht (hclear i)
    rwa [hpc, Pc.calling, if_pos rfl] at this
  have htold : ∀ h' pos t', .called h' pos t' ∈ (if t.del then s else s.record (.called h i t)).history → Q h' t' := by
    intro h' pos t' hmem
    split at hmem
    · exact hh.told h' pos t' hmem
    · rcases List.mem_append.mp hmem with hmem | hmem
      · exact hh.told h' pos t' hmem
      · cases List.mem_singleton.mp hmem
        exact hQ
  have hque : (if t.del then s else s.record (.called h i t)).taskQue = s.taskQue := by split <;> rfl
  dsimp only
  generalize (if t.del then s else s.record (.called h i t)) = s₁ at htold hque ⊢
  have hback : P t → Held P Q { s₁ with pc := .scan (i + 1) remain c } := by
    refine fun hP => Held.of_all (fun j t' ht' => ?_) ⟨fun _ => rfl, fun _ => id⟩ htold
    rcases eq_or_ne j i with rfl | hne
    · cases (show s₁.taskQue j = some t by rw [hque, ht]).symm.trans ht'
      exact hP
    · exact hrest j hne t' (hque ▸ ht')
  have hend : Held P Q { s₁ with pc := .clear i remain c } := by
    exact ⟨fun j t' ht' hj => hrest j hj t' (hque ▸ ht'), fun _ _ => rfl, fun _ => (Option.some_ne_none _).symm, htold⟩
  rcases h with - | - | - | - | -
  · exact hback (hr.initDone t hQ)
  · exact absurd (show s.pc.calling i = some .headcomplete by rw [hpc]; exact if_pos rfl) (hh.scanned i)
  · refine Held.of_all (fun j t' ht' => ?_) ⟨fun _ => rfl, fun _ => id⟩ htold
    rcases eq_or_ne j i with rfl | hne
    · cases (Function.update_self ..).symm.trans ht'
      exact hr.processDone t hQ
    · exact hrest j hne t' (hque ▸ (Function.update_of_ne hne ..).symm.trans ht')
  · exact hend
  · exact hend

theorem ioRead (e : Env) (sockfd taskid : ℕ) (t₀ t : TTask) (delete_map : List (ℕ × ℕ)) (hP : P t₀)
    (hopen : t₀.taskState.open) (ht : t = t₀ ∨ ∃ ret, t = (t₀.sendHttpReqContinue e.now ret).2)
    (hrest : ∀ j, j ≠ taskid → ∀ t, s.taskQue j = some t → P t)
    (htold : ∀ h pos t, .called h pos t ∈ s.history → Q h t) :
    let r := s.ioRead e sockfd taskid t delete_map
    (∀ j t, r.1.taskQue j = some t → P t) ∧ ∀ h pos t, .called h pos t ∈ r.1.history → Q h t := by
  have hput : ∀ {t'}, P t' → ∀ j t, (s.put taskid (some t')).taskQue j = some t → P t := by
    intro t' hP' j t ht
    rcases eq_or_ne j taskid with rfl | hne
    · cases (Function.update_self ..).symm.trans ht
      exact hP'
    · exact hrest j hne t ((Function.update_of_ne hne ..).symm.trans ht)
  rw [State.ioRead]
  split
  · have hPt : P t := by
      rcases ht with rfl | ⟨ret, rfl⟩
      · exact hP
      · exact hr.sendMore t₀ e.now ret hP hopen
    have hresp := hr.authResp t e.now e.authResp hPt ‹_›
    rcases hauth : t.onAuthResp e.now e.authResp with ⟨_ | _, t'⟩ <;> rw [hauth] at hresp <;>
      exact ⟨hput hresp, htold⟩
  · have hread := hr.read t₀ t e.now e.head e.recv hP hopen ht
    rcases hresp : t.processHttpResp e.now e.head e.recv with ⟨ret, t'⟩
    rw [hresp] at hread
    dsimp only at hread ⊢
    by_cases hret : ret = .ok ∨ ret = .continue
    · rw [if_pos hret]
      by_cases htell : (!t'.del && t'.respHeadCompleted && t'.handle_headcomplete) = true
      · rw [if_pos ⟨hret, htell⟩] at hread
        rw [if_pos htell]
        refine ⟨hput hread.2, fun h pos t hmem => ?_⟩
        rcases List.mem_append.mp hmem with hmem | hmem
        · exact htold h pos t hmem
        · cases List.mem_singleton.mp hmem
          exact hread.1
      · rw [if_neg fun h => htell h.2] at hread
        rw [if_neg htell]
        exact ⟨hput hread, htold⟩
    · rw [if_neg fun h => hret h.1] at hread
      rw [if_neg hret]
      exact ⟨hput hread, htold⟩

theorem ioTask (e : Env) (sockfd taskid : ℕ) (t : TTask) (tmpread tmpwrite : Finset ℕ)
    (delete_map : List (ℕ × ℕ)) (ht : s.taskQue taskid = some t) (hall : ∀ j t, s.taskQue j = some t → P t)
    (htold : ∀ h pos t, .called h pos t ∈ s.history → Q h t) :
    let r := s.ioTask e sockfd taskid t tmpread tmpwrite delete_map
    (∀ j t, r.1.taskQue j = some t → P t) ∧ ∀ h pos t, .called h pos t ∈ r.1.history → Q h t := by
  rw [State.ioTask]
  by_cases hclosed : t.taskState.rank < TaskStatus.connectWait.rank ∨ TaskStatus.running.rank < t.taskState.rank
  · rw [if_pos hclosed]
    exact ⟨hall, htold⟩
  rw [if_neg hclosed]
  have hopen : t.taskState.open := ⟨Nat.le_of_not_lt fun h => hclosed (.inl h), Nat.le_of_not_lt fun h => hclosed (.inr h)⟩
  split
  · exact ⟨all_put hall (hr.connected t _ _ (hall _ t ht) (‹_ ∧ _›).2), htold⟩
  by_cases hwrite : sockfd ∈ tmpwrite
  · rw [if_pos hwrite, State.ioWrite]
    have hmore := hr.sendMore t e.now e.send (hall _ t ht) hopen
    have hrest : ∀ {t'} j, j ≠ taskid → ∀ t, (s.put taskid (some t')).taskQue j = some t → P t :=
      fun j hj t ht => hall j t ((Function.update_of_ne hj ..).symm.trans ht)
    rcases hsend : t.sendHttpReqContinue e.now e.send with ⟨ret, t'⟩
    rw [hsend] at hmore
    have hfrom : t' = t ∨ ∃ ret, t' = (t.sendHttpReqContinue e.now ret).2 := .inr ⟨e.send, by rw [hsend]⟩
    rcases ret with n | n | - <;> dsimp only <;> split
    · refine hr.ioRead e sockfd taskid t t' _ (hall _ t ht) hopen hfrom (fun j hj t ht => ?_) (fun h pos t hmem => ?_)
      · dsimp only at ht
        rw [State.taskQue_watchRead] at ht
        exact hrest j hj t ht
      · rw [(Same.watchRead (Same.refl (s.put taskid (some t'))) t').history] at hmem
        exact htold h pos t hmem
    · refine ⟨fun j t ht => ?_, fun h pos t hmem => ?_⟩
      · rw [State.taskQue_watchRead] at ht
        exact all_put hall hmore j t ht
      · rw [(Same.watchRead (Same.refl (s.put taskid (some t'))) t').history] at hmem
        exact htold h pos t hmem
    · exact hr.ioRead e sockfd taskid t t' _ (hall _ t ht) hopen hfrom hrest htold
    · exact ⟨all_put hall hmore, htold⟩
    · exact hr.ioRead e sockfd taskid t t' _ (hall _ t ht) hopen hfrom hrest htold
    · exact ⟨all_put hall hmore, htold⟩
  · rw [if_neg hwrite]
    dsimp only
    split
    · exact hr.ioRead e sockfd taskid t t _ (hall _ t ht) hopen (.inl rfl) (fun j _ => hall j) htold
    · exact ⟨hall, htold⟩

/-- Every step of the worker keeps what the operations on a task keep. -/
theorem workerStep (hh : Held P Q s) (e : Env) (h : s.workerStep e = some s') : Held P Q s' := by
  have hloop : ∀ {s₁ : State}, (∀ j t, s₁.taskQue j = some t → P t) →
      (∀ h pos t, .called h pos t ∈ s₁.history → Q h t) → Held P Q s₁.loopEnd := by
    intro s₁ hall htold
    rw [State.loopEnd]
    split
    · exact Held.of_all hall ⟨fun _ => rfl, fun _ => id⟩ htold
    · exact Held.of_all hall ⟨fun _ => rfl, fun _ => id⟩ htold
  have hgone : ∀ {i j : ℕ} {t : TTask}, (s.clearTaskInfo i).taskQue j = some t → j ≠ i ∧ s.taskQue j = some t := by
    intro i j t ht
    rw [State.taskQue_clearTaskInfo] at ht
    rcases eq_or_ne j i with rfl | hne
    · cases (Function.update_self ..).symm.trans ht
    · exact ⟨hne, (Function.update_of_ne hne ..).symm.trans ht⟩
  have hcleared : ∀ i h pos t, .called h pos t ∈ (s.clearTaskInfo i).history → Q h t := by
    intro i h pos t hmem
    rcases hi : s.taskQue i with - | t₀
    · rw [State.clearTaskInfo_none hi] at hmem
      exact hh.told h pos t hmem
    · rw [(State.clearTaskInfo_some hi).history] at hmem
      rcases List.mem_append.mp hmem with hmem | hmem
      · exact hh.told h pos t hmem
      · cases List.mem_singleton.mp hmem
  rw [State.workerStep] at h
  rcases hpc : s.pc with ⟨i, remain, c⟩ | ⟨hd, i, remain, c⟩ | ⟨i, remain, c⟩ | - | ⟨it, tr, tw, dm⟩ | i | - <;>
    rw [hpc] at h
  · cases h
    exact hr.scanStep hh e i remain c hpc
  · cases h
    exact hr.callStep hh hd i remain c hpc
  · cases h
    refine Held.of_all (fun j t ht => ?_) ⟨fun _ => rfl, fun _ => id⟩ (hcleared i)
    obtain ⟨hne, ht⟩ := hgone ht
    have := hh.tasks j t ht (by rw [hpc]; exact hne)
    rwa [hpc] at this
  · cases h
    have hall := hh.all (by rw [hpc]; exact ⟨fun _ => rfl, fun _ => id⟩)
    rw [State.selectStep]
    split
    · exact hloop hall hh.told
    · exact Held.of_all hall ⟨fun _ => rfl, fun _ => id⟩ hh.told
  · have hall := hh.all (by rw [hpc]; exact ⟨fun _ => rfl, fun _ => id⟩)
    rcases it with - | ⟨⟨sockfd, taskid⟩, it⟩
    · cases h
      exact hloop hall hh.told
    · dsimp only at h
      rw [State.ioStep] at h
      split at h
      · cases h
        exact hloop hall hh.told
      · rcases ht : s.taskQue taskid with - | t <;> rw [ht] at h
        · cases h
        · obtain ⟨htasks, htold⟩ := hr.ioTask e sockfd taskid t tr tw dm ht hall hh.told
          cases h
          exact Held.of_all htasks ⟨fun _ => rfl, fun _ => id⟩ htold
  · cases h
    have hall := hh.all (by rw [hpc]; exact ⟨fun _ => rfl, fun _ => id⟩)
    rw [State.cleanupStep]
    split
    · exact Held.of_all (fun j t ht => hall j t (hgone ht).2) ⟨fun _ => rfl, fun _ => id⟩ (hcleared i)
    · exact Held.of_all hall ⟨fun _ => rfl, fun _ => id⟩ hh.told
  · cases h
    exact hh

theorem call (hh : Held P Q s) (h : Call s s') : Held P Q s' := by
  have hmark : ∀ {i : ℕ} {t₀ t' : TTask}, s.taskQue i = some t₀ → (P t₀ → P t') → (∀ h, Q h t₀ → Q h t') →
      ∀ j t, (s.put i (some t')).taskQue j = some t → ¬ s.pc.clearing j →
        match s.pc.calling j with | some h => Q h t | none => P t := by
    intro i t₀ t' ht₀ hP hQ j t ht hclear
    rcases eq_or_ne j i with rfl | hne
    · cases (Function.update_self ..).symm.trans ht
      have hold := hh.tasks j t₀ ht₀ hclear
      rcases hcall : s.pc.calling j with - | h <;> rw [hcall] at hold
      · exact hP hold
      · exact hQ h hold
    · exact hh.tasks j t ((Function.update_of_ne hne ..).symm.trans ht) hclear
  have hfilled : ∀ {i j : ℕ} {t' : TTask}, (s.put i (some t')).taskQue j = none → s.taskQue j = none := by
    intro i j t' hj
    rcases eq_or_ne j i with rfl | hne
    · cases (Function.update_self ..).symm.trans hj
    · exact (Function.update_of_ne hne ..).symm.trans hj
  have htold : ∀ {e : Event}, (∀ h pos t, e ≠ .called h pos t) →
      ∀ h pos t, .called h pos t ∈ s.history ++ [e] → Q h t := by
    intro e he h pos t hmem
    rcases List.mem_append.mp hmem with hmem | hmem
    · exact hh.told h pos t hmem
    · exact absurd (List.mem_singleton.mp hmem).symm (he h pos t)
  rcases h with rfl | ⟨i, o, now, curPos, -, hfree, -, -, -, rfl⟩ | ⟨i, t, client, -, ht, -, rfl⟩ |
    ⟨i, b, -, -, rfl⟩ | ⟨b, -, -, rfl⟩ | ⟨i, -, -, rfl⟩ | ⟨i, -, -, rfl⟩
  · exact hh
  · refine ⟨fun j t ht hclear => ?_, fun j hj => hh.taken j (hfilled hj), hh.scanned,
      htold fun _ _ _ => Event.noConfusion⟩
    rcases eq_or_ne j i with rfl | hne
    · cases (Function.update_self ..).symm.trans ht
      change match s.pc.calling j with | some h => Q h _ | none => P _
      rw [hh.taken j hfree]
      exact hr.create _ o now
    · exact hh.tasks j t ((Function.update_of_ne hne ..).symm.trans ht) hclear
  · exact ⟨hmark ht (hr.cancel t) (fun h => hr.cancelCall h t), fun j hj => hh.taken j (hfilled hj), hh.scanned,
      htold fun _ _ _ => Event.noConfusion⟩
  · exact ⟨hh.tasks, hh.taken, hh.scanned, hh.told⟩
  · exact ⟨hh.tasks, hh.taken, hh.scanned, hh.told⟩
  · exact ⟨hh.tasks, hh.taken, hh.scanned, htold fun _ _ _ => Event.noConfusion⟩
  · refine ⟨hh.tasks, hh.taken, hh.scanned, fun h pos t hmem => ?_⟩
    rcases List.mem_append.mp hmem with hmem | hmem
    · exact htold (fun _ _ _ => Event.noConfusion) h pos t hmem
    · cases List.mem_singleton.mp hmem

theorem states (n : ℕ) (as : List Act) : ∀ s ∈ Runs.states step (start n) as, Held P Q s := by
  intro s hs
  have hstart : Held P Q (start n) := 
    ⟨fun _ _ h => (nomatch h), fun _ _ => rfl, fun _ => (Option.some_ne_none _).symm, fun _ _ _ h => (nomatch h)⟩
  have hboth := invariant_always (I := fun s => Kept s ∧ Held P Q s) (fun s a s' hI h => ?_) as (start n)
    ⟨⟨Slots.start n, Sweeps.start n, Books.start n⟩, hstart⟩ s hs
  · exact hboth.2
  · refine ⟨hI.1.step h, ?_⟩
    rcases step_cases hI.1.slots.curPos h with ⟨e, -, h⟩ | h
    · exact hr.workerStep hI.2 e h
    · exact hr.call hI.2 h

end Rules

/-! ### Limits -/

theorem TaskStatus.idle_closed : ¬ connectWait.rank ≤ idle.rank := by decide

theorem TaskStatus.connect_closed : ¬ connectWait.rank ≤ connect.rank := by decide

/-- Every redirection has cost a connection, and a task that is connected has one more. -/
structure Healthy (t : TTask) : Prop where
  connects : t.connectTimes ≤ maxRetryConnect
  trips : t.redirectionTimes ≤ t.connectTimes
  paid : TaskStatus.connectWait.rank ≤ t.taskState.rank → t.taskState ≠ .error → t.redirectionTimes < t.connectTimes
  info : t.taskState.rank ≤ TaskStatus.start.rank → t.shouldGetFileInfo = true
  known : t.taskState ≠ .unknown
  cause : t.errcode ≠ .redirectionExceed ∧ t.errcode ≠ .unknownStatus

namespace Healthy

variable {t t' : TTask}

theorem fail (h : Healthy t) {errcode : ErrTask} (hcause : errcode ≠ .redirectionExceed ∧ errcode ≠ .unknownStatus) :
    Healthy (t.fail errcode) :=
  ⟨h.connects, h.trips, fun _ hne => absurd rfl hne, fun hle => absurd hle (show ¬ TaskStatus.error.rank ≤ TaskStatus.start.rank by decide),
    TaskStatus.noConfusion, hcause⟩

/-- Only the status, and what the counters do not look at, is different. -/
theorem moved (h : Healthy t) (hconnect : t'.connectTimes = t.connectTimes)
    (hredirect : t'.redirectionTimes = t.redirectionTimes) (herr : t'.errcode = t.errcode)
    (hknown : t'.taskState ≠ .unknown)
    (hinfo : t'.taskState.rank ≤ TaskStatus.start.rank → t'.shouldGetFileInfo = true)
    (hpaid : TaskStatus.connectWait.rank ≤ t'.taskState.rank → t.redirectionTimes < t.connectTimes) : Healthy t' :=
  ⟨hconnect ▸ h.connects, hconnect ▸ hredirect ▸ h.trips, fun hle _ => hconnect ▸ hredirect ▸ hpaid hle, hinfo, hknown,
    herr ▸ h.cause⟩

/-- Nothing that the limits look at is different. -/
theorem same (h : Healthy t) (hstate : t'.taskState = t.taskState) (hconnect : t'.connectTimes = t.connectTimes)
    (hredirect : t'.redirectionTimes = t.redirectionTimes) (herr : t'.errcode = t.errcode)
    (hinfo : t'.shouldGetFileInfo = t.shouldGetFileInfo) : Healthy t' :=
  ⟨hconnect ▸ h.connects, hconnect ▸ hredirect ▸ h.trips, hconnect ▸ hredirect ▸ hstate ▸ h.paid,
    hinfo ▸ hstate ▸ h.info, hstate ▸ h.known, herr ▸ h.cause⟩

theorem updateTaskInfo (h : Healthy t) : Healthy t.updateTaskInfo := by
  obtain ⟨d, c, heq⟩ := t.updateTaskInfo_eq
  rw [heq]
  exact h.same rfl rfl rfl rfl rfl

/-- A task that is connected may go to any status from there. -/
theorem live (h : Healthy t) (hopen : t.taskState.open) : t.redirectionTimes < t.connectTimes := by
  refine h.paid hopen.1 fun herr => ?_
  rw [herr] at hopen
  exact absurd hopen.2 (by decide)

theorem tryConnect (h : Healthy t) (hst : t.taskState = .connect) (now newfd : ℕ) (ret : TTask.ConnectRet)
    (check : Bool) : Healthy (t.tryConnect now newfd ret check).2 := by
  have hinfo : t.shouldGetFileInfo = true := h.info (by rw [hst]; decide)
  have htrips := h.trips
  rw [TTask.tryConnect]
  split
  · exact fail (t := { t with startTime := now, last_active_time := now }) (h.same rfl rfl rfl rfl rfl) ⟨ErrTask.noConfusion, ErrTask.noConfusion⟩
  · have hle : t.connectTimes + 1 ≤ maxRetryConnect := Nat.lt_of_not_le ‹_›
    -- one more connection is paid for, whatever comes of it
    have hnew : ∀ t' : TTask, t'.connectTimes = t.connectTimes + 1 → t'.redirectionTimes = t.redirectionTimes →
        t'.errcode = t.errcode → t'.taskState ≠ .unknown → t'.shouldGetFileInfo = true → Healthy t' :=
      fun t' hc hr he hk hi => ⟨hc ▸ hle, by omega, fun _ _ => by omega, fun _ => hi, hk, he ▸ h.cause⟩
    rcases ret with - | - | - | - | -
    · refine hnew _ ?_ ?_ ?_ ?_ ?_
      all_goals
        simp only [TTask.onConnected]
        split
      all_goals first | rfl | exact hinfo | skip
      · split <;> exact TaskStatus.noConfusion
      · rw [hst]
        exact TaskStatus.noConfusion
    · exact hnew _ rfl rfl rfl TaskStatus.noConfusion hinfo
    all_goals exact hnew _ rfl rfl rfl (by rw [hst]; exact TaskStatus.noConfusion) hinfo

theorem tryAuth (h : Healthy t) (hst : t.taskState = .auth) (now : ℕ) (ok : Bool) : Healthy (t.tryAuth now ok).2 := by
  have hinfo : t.shouldGetFileInfo = true := h.info (by rw [hst]; decide)
  have hlive := h.live (by rw [hst]; decide)
  have hproxy : Healthy (t.proxyAuth ok).2 ∧ (t.proxyAuth ok).2.taskState = .auth := by
    rw [TTask.proxyAuth]
    cases t.opts.proxy
    case sock5 =>
      rcases t.socksInit with _ | _
      · exact ⟨h, hst⟩
      · cases ok <;> exact ⟨h.same rfl rfl rfl rfl rfl, hst⟩
    all_goals exact ⟨h, hst⟩
  rw [TTask.tryAuth]
  rcases hp : t.proxyAuth ok with ⟨ret, t'⟩
  rw [hp] at hproxy
  obtain ⟨ht', hst'⟩ := hproxy
  have hinfo' : t'.shouldGetFileInfo = true := ht'.info (by rw [hst']; decide)
  have hlive' := ht'.live (by rw [hst']; decide)
  have hnow : Healthy { t' with last_active_time := now } := ht'.same rfl rfl rfl rfl rfl
  rcases ret with - | - | - | -
  · exact hnow.moved rfl rfl rfl TaskStatus.noConfusion (fun _ => hinfo') fun _ => hlive'
  · exact hnow
  · exact hnow
  · exact hnow.fail ⟨ErrTask.noConfusion, ErrTask.noConfusion⟩

theorem onConnected (h : Healthy t) (hst : t.taskState = .connectWait) (now : ℕ) (ok : Bool) :
    Healthy (t.onConnected now ok) := by
  have hlive := h.live (by rw [hst]; decide)
  have hinfo : t.shouldGetFileInfo = true := h.info (by rw [hst]; decide)
  rw [TTask.onConnected]
  split
  · refine h.moved rfl rfl rfl ?_ (fun _ => hinfo) fun _ => hlive
    dsimp only
    split <;> exact TaskStatus.noConfusion
  · exact h.same rfl rfl rfl rfl rfl

theorem onAuthResp (h : Healthy t) (hst : t.taskState = .auth) (now : ℕ) (ret : TTask.AuthRet) :
    Healthy (t.onAuthResp now ret).2 := by
  have hlive := h.live (by rw [hst]; decide)
  have hinfo : t.shouldGetFileInfo = true := h.info (by rw [hst]; decide)
  have hnow : Healthy { t with last_active_time := now } := h.same rfl rfl rfl rfl rfl
  rcases ret with - | - | - | -
  · exact h.moved rfl rfl rfl TaskStatus.noConfusion (fun _ => hinfo) fun _ => hlive
  · exact hnow.fail ⟨ErrTask.noConfusion, ErrTask.noConfusion⟩
  · exact hnow
  · exact hnow.fail ⟨ErrTask.noConfusion, ErrTask.noConfusion⟩

theorem sendHttpReq (h : Healthy t) (hst : t.taskState = .start) (now : ℕ) (build : Except BuildFail ℕ)
    (ret : TTask.SendRet) : Healthy (t.sendHttpReq now build ret).2 := by
  have hlive := h.live (by rw [hst]; decide)
  have hbad : ∀ e, retToErr e ≠ .redirectionExceed ∧ retToErr e ≠ .unknownStatus := by
    rintro (- | - | - | - | - | -) <;> exact ⟨ErrTask.noConfusion, ErrTask.noConfusion⟩
  have hfail : ∀ (t' : TTask), t'.connectTimes = t.connectTimes → t'.redirectionTimes = t.redirectionTimes →
      ∀ errcode, errcode ≠ .redirectionExceed ∧ errcode ≠ .unknownStatus → Healthy (t'.fail errcode) :=
    fun t' hc hr errcode he => ⟨hc ▸ h.connects, hc ▸ hr ▸ h.trips, fun _ hne => absurd rfl hne,
      fun hle => absurd hle (show ¬ TaskStatus.error.rank ≤ TaskStatus.start.rank by decide), TaskStatus.noConfusion, he⟩
  have hrun : ¬ TaskStatus.running.rank ≤ TaskStatus.start.rank := by decide
  rcases build with e | size
  · exact hfail { t with shouldGetFileInfo := false, last_active_time := now } rfl rfl _ (hbad e)
  · rcases ret with n | n | -
    · exact h.moved rfl rfl rfl TaskStatus.noConfusion (fun hle => absurd hle hrun) fun _ => hlive
    · exact h.moved rfl rfl rfl TaskStatus.noConfusion (fun hle => absurd hle hrun) fun _ => hlive
    · exact hfail { t with shouldGetFileInfo := false, last_active_time := now, requestSize := size } rfl rfl
        .socketSend ⟨ErrTask.noConfusion, ErrTask.noConfusion⟩

theorem sendHttpReqContinue (h : Healthy t) (now : ℕ) (ret : TTask.SendRet) :
    Healthy (t.sendHttpReqContinue now ret).2 := by
  have hnow : Healthy { t with last_active_time := now } := h.same rfl rfl rfl rfl rfl
  rcases ret with n | n | -
  · exact h.same rfl rfl rfl rfl rfl
  · exact h.same rfl rfl rfl rfl rfl
  · exact hnow.fail ⟨ErrTask.noConfusion, ErrTask.noConfusion⟩

/-- An answer is read on a task that has paid for its connection; a redirection takes that away. -/
theorem processHttpResp (h : Healthy t) (hlive : t.redirectionTimes < t.connectTimes) (now : ℕ) (head : TTask.HeadRet)
    (recv : TTask.RecvRet) : Healthy (t.processHttpResp now head recv).2 := by
  have hnow : Healthy { t with last_active_time := now } := h.same rfl rfl rfl rfl rfl
  have hdone : ¬ TaskStatus.finished.rank ≤ TaskStatus.start.rank := by decide
  rw [TTask.processHttpResp]
  split
  · rw [TTask.getRealData]
    generalize (if 0 < t.contentLength ∧ t.opts.task_type = .download ∧ t.doneSize < t.contentLength then
      t.contentLength - t.doneSize else 0) = needSize
    have hrecv : Healthy { (t.directRecvData needSize recv).2 with last_active_time := now } ∧
        (t.directRecvData needSize recv).2.redirectionTimes < (t.directRecvData needSize recv).2.connectTimes := by
      rcases recv with n | - | -
      · rw [TTask.directRecvData]
        split <;> exact ⟨h.same rfl rfl rfl rfl rfl, hlive⟩
      · exact ⟨hnow, hlive⟩
      · exact ⟨hnow, hlive⟩
    rcases hd : t.directRecvData needSize recv with ⟨ret, t'⟩
    rw [hd] at hrecv
    obtain ⟨ht', hlive'⟩ := hrecv
    rcases ret with - | - | - | - | - | - | -
    case finish => exact ht'.moved rfl rfl rfl TaskStatus.noConfusion (fun hle => absurd hle hdone) fun _ => hlive'
    case socketError => exact ht'.fail ⟨ErrTask.noConfusion, ErrTask.noConfusion⟩
    all_goals exact ht'
  · rcases head with n | (_ | _) | ntlm | - | - | -
    · simp only [TTask.processHttpRespHead]
      split
      · exact h.moved rfl rfl rfl TaskStatus.noConfusion (fun hle => absurd hle hdone) fun _ => hlive
      · exact h.same rfl rfl rfl rfl rfl
    · exact hnow.fail ⟨ErrTask.noConfusion, ErrTask.noConfusion⟩
    · exact ⟨h.connects, hlive, fun hle => absurd hle TaskStatus.connect_closed, fun _ => rfl, TaskStatus.noConfusion, h.cause⟩
    · simp only [TTask.processHttpRespHead]
      split
      · exact h.moved rfl rfl rfl TaskStatus.noConfusion (fun _ => rfl) fun _ => hlive
      · exact hnow.fail ⟨ErrTask.noConfusion, ErrTask.noConfusion⟩
    · exact hnow
    · exact hnow.fail ⟨ErrTask.noConfusion, ErrTask.noConfusion⟩
    · exact hnow.fail ⟨ErrTask.noConfusion, ErrTask.noConfusion⟩

theorem read {t₀ : TTask} (h : Healthy t₀) (hopen : t₀.taskState.open) (now : ℕ) (head : TTask.HeadRet)
    (recv : TTask.RecvRet) (ht : t = t₀ ∨ ∃ ret, t = (t₀.sendHttpReqContinue now ret).2) :
    Healthy (t.processHttpResp now head recv).2 := by
  have hlive := h.live hopen
  rcases ht with rfl | ⟨ret, rfl⟩
  · exact h.processHttpResp hlive now head recv
  · refine (h.sendHttpReqContinue now ret).processHttpResp ?_ now head recv
    rcases ret with n | n | - <;> exact hlive

end Healthy

/-- What a callback may report under the limits. -/
structure Told (h : Handler) (t : TTask) : Prop where
  healthy : Healthy t
  handler : h ≠ .init
  finished : h = .finish → t.taskState = .finished

theorem limits : Rules Healthy Told where
  create id o now := ⟨Nat.zero_le _, le_rfl, fun hle => absurd hle TaskStatus.idle_closed, fun _ => rfl, TaskStatus.noConfusion,
    ErrTask.noConfusion, ErrTask.noConfusion⟩
  cancel t h := h.same rfl rfl rfl rfl rfl
  cancelCall hd t h := ⟨h.healthy.same rfl rfl rfl rfl rfl, h.handler, h.finished⟩
  timeout t h _ := h.fail ⟨ErrTask.noConfusion, ErrTask.noConfusion⟩
  activate t h hst := h.moved rfl rfl rfl TaskStatus.noConfusion (fun _ => h.info (by rw [hst]; decide))
      fun hle => absurd hle TaskStatus.connect_closed
  connect t now newfd ret check h hst := h.tryConnect hst now newfd ret check
  connectTimeout t now h hst := by
    rw [TTask.checkConnectTimeout]
    split
    · exact h.moved rfl rfl rfl TaskStatus.noConfusion (fun _ => h.info (by rw [hst]; decide))
        fun hle => absurd hle TaskStatus.connect_closed
    · exact h
  auth t now ok h hst := h.tryAuth hst now ok
  exceed t h hst hexceed := by
    have hlive := h.live (by rw [hst]; decide)
    have hconnects := h.connects
    rw [maxRedirections] at hexceed
    rw [maxRetryConnect] at hconnects
    omega
  send t now build ret h hst _ := h.sendHttpReq hst now build ret
  init t h hst hinfo := absurd ((h.info (by rw [hst])).symm.trans hinfo) Bool.noConfusion
  initDone t h := h.healthy
  process t h hst := by
    split
    · exact ⟨h.updateTaskInfo, Handler.noConfusion, Handler.noConfusion⟩
    · exact h.updateTaskInfo
  processDone t h := by
    split
    · exact h.healthy.same rfl rfl rfl rfl rfl
    · exact h.healthy
  finish t h hst := ⟨h.updateTaskInfo, Handler.noConfusion, fun _ => t.taskState_updateTaskInfo.trans hst⟩
  error t h hst := ⟨h.updateTaskInfo, Handler.noConfusion, Handler.noConfusion⟩
  unknown t h hst := absurd hst h.known
  connected t now ok h hst := h.onConnected hst now ok
  authResp t now ret h hst := h.onAuthResp hst now ret
  sendMore t now ret h _ := h.sendHttpReqContinue now ret
  read t₀ t now head recv h hopen ht := by
    have hread := h.read hopen now head recv ht
    dsimp only
    split
    · exact ⟨⟨hread.updateTaskInfo, Handler.noConfusion, Handler.noConfusion⟩, hread.updateTaskInfo.same rfl rfl rfl rfl rfl⟩
    · exact hread

/-- `MAX_REDIRECTIONS` is never reached: the three connections a transfer gets leave room for two
    redirections, and the init callback is never made. -/
structure State.Limited (s : State) : Prop where
  init : ∀ pos t, .called .init pos t ∉ s.history
  cause : ∀ h pos t, .called h pos t ∈ s.history → t.errcode ≠ .redirectionExceed ∧ t.errcode ≠ .unknownStatus
  trips : ∀ h pos t, .called h pos t ∈ s.history → t.redirectionTimes ≤ t.connectTimes ∧ t.connectTimes ≤ 3
  finished : ∀ pos t, .called .finish pos t ∈ s.history → t.redirectionTimes ≤ 2

theorem redirections_limited (n : ℕ) (as : List Act) : ∀ s ∈ states step (start n) as, s.Limited := by
  intro s hs
  have htold := (limits.states n as s hs).told
  refine ⟨fun pos t h => (htold _ pos t h).handler rfl, fun h pos t hc => (htold h pos t hc).healthy.cause,
    fun h pos t hc => ⟨(htold h pos t hc).healthy.trips, (htold h pos t hc).healthy.connects⟩, fun pos t hc => ?_⟩
  obtain ⟨hhealthy, -, hfin⟩ := htold _ pos t hc
  have hpaid := hhealthy.paid (by rw [hfin rfl]; decide) (by rw [hfin rfl]; exact TaskStatus.noConfusion)
  have hconnects : t.connectTimes ≤ 3 := hhealthy.connects
  omega

theorem redirections_limited_two : (Option.get _ twoTransfers_runs).Limited :=
  redirections_limited 32 twoTransfers _ (mem_states_foldlM (Option.some_get twoTransfers_runs).symm)

end UrlTraveler.Transfer
