import UrlTraveler.Web.Requests

/-! What holds of every life in every run.

    Nothing is there of a request before it is pushed, and only its context in the queue before it is
    sent; a task leads to the request it was started for, and the number of that request back to the
    task. The numbers are not given twice as long as `m_nReqSeq` does not come round. -/

namespace UrlTraveler.Web
open Maps Runs

/-! ### Lives in every run -/

/-- What a life has been through before a move. -/
def Life.Can (n : ℕ) (l : Life) : Move → Prop
  | .push _ => .pushed n ∉ l.history
  | .cancel => .pushed n ∈ l.history
  | .process _ _ | .finish _ _ | .error _ => l.running = true
  | _ => True

/-- Nothing is there of a request before it is pushed, and only that before it is sent. -/
structure Life.Proper (n : ℕ) (l : Life) : Prop where
  keyed : ∀ c, c ∈ l.waiting ∨ l.context = some c ∨ c ∈ l.results → c.nReqSeq = n
  unborn : .pushed n ∉ l.history → l = {}
  unsent : l.waiting ≠ [] → l.waiting.length = 1 ∧ l.context = none ∧ l.slot = none ∧
    l.running = false ∧ l.results = [] ∧ ∀ e ∈ l.history, e = .pushed n ∨ e = .cancelled n

section Proper
variable {n : ℕ} {l : Life}

/-- After a request was sent, its life keeps proper as long as its contexts keep the number. -/
theorem Life.Proper.later (hl : l.Proper n) {l' : Life} (hsent : l.waiting = [] ∧ l ≠ {})
    (hwaiting : l'.waiting = []) (hhistory : l.history ⊆ l'.history)
    (hcontext : ∀ c, l'.context = some c → c.nReqSeq = n)
    (hresults : ∀ c ∈ l'.results, c.nReqSeq = n) : l'.Proper n where
  keyed := by
    rintro c (hc | hc | hc)
    · rw [hwaiting] at hc
      cases hc
    · exact hcontext c hc
    · exact hresults c hc
  unborn := fun hborn => absurd (hl.unborn fun h => hborn (hhistory h)) hsent.2
  unsent := fun h => absurd hwaiting h

/-- A request with a context or a result has been sent. -/
theorem Life.Proper.sent (hl : l.Proper n) (h : l.context ≠ none ∨ l.results ≠ []) :
    l.waiting = [] ∧ l ≠ {} := by
  constructor
  · by_contra hwait
    obtain ⟨-, hcontext, -, -, hresults, -⟩ := hl.unsent hwait
    rcases h with hne | hne
    · exact hne hcontext
    · exact hne hresults
  · rintro rfl
    rcases h with hne | hne <;> exact hne rfl

theorem Life.Proper.stop (hl : l.Proper n) : l.stop.Proper n where
  keyed := hl.keyed
  unborn := fun h => by rw [hl.unborn h]; rfl
  unsent := fun h => by
    obtain ⟨hone, hctx, hslot, _, hres, hhist⟩ := hl.unsent h
    exact ⟨hone, hctx, hslot, rfl, hres, hhist⟩

theorem Life.Proper.callback (hl : l.Proper n)
    {body : HttpContext → HttpContext × List HttpContext} (hbody : Copies body) :
    (l.callback body).Proper n := by
  rw [Life.callback]
  split
  next => exact hl
  next c hc =>
    have hseq : c.nReqSeq = n := hl.keyed c (.inr (.inl hc))
    have hsent := hl.sent (.inl (hc ▸ Option.some_ne_none c))
    refine hl.later hsent hsent.1 (fun _ => id) ?_ ?_
    · rintro c' ⟨⟩
      exact (hbody.nReqSeq c).trans hseq
    · intro r hr
      rcases List.mem_append.mp hr with hr | hr
      · exact hl.keyed r (.inr (.inr hr))
      · exact (hbody.mem hr).1.trans hseq

/-- An answer adds to the history, and keeps the context or drops it. -/
theorem answer_frame (uNum : ℕ) (ret : Option ℕ) (desMId : BitVec 16) (c : HttpContext) (l : Life) :
    (l.answer n uNum ret desMId c).waiting = l.waiting ∧
      (l.answer n uNum ret desMId c).results = l.results ∧
      l.history ⊆ (l.answer n uNum ret desMId c).history ∧
      ∀ c', (l.answer n uNum ret desMId c).context = some c' →
        ∃ c₀, l.context = some c₀ ∧ c'.nReqSeq = c₀.nReqSeq ∧ c'.strURL = c₀.strURL := by
  rw [Life.answer]
  split
  next => exact ⟨rfl, rfl, fun _ => id, fun c' h => ⟨c', h, rfl, rfl⟩⟩
  next =>
    rw [Life.retry]
    split
    next => exact ⟨rfl, rfl, fun _ => id, fun c' h => ⟨c', h, rfl, rfl⟩⟩
    next c₀ hc₀ =>
      cases ret <;>
        exact ⟨rfl, rfl, fun _ => id, by rintro c' ⟨⟩; exact ⟨c₀, hc₀, rfl, rfl⟩⟩
  next =>
    split
    · refine ⟨rfl, rfl, ?_, fun c' h => by cases h⟩
      simp [Life.delete, Life.record, Life.unlink]
    · refine ⟨rfl, rfl, ?_, fun c' h => ⟨c', h, rfl, rfl⟩⟩
      simp [Life.record]
  next =>
    split
    · refine ⟨rfl, rfl, ?_, fun c' h => by cases h⟩
      simp [Life.delete, Life.record, Life.unlink]
    · exact ⟨rfl, rfl, fun _ => id, fun c' h => ⟨c', h, rfl, rfl⟩⟩

theorem Life.Proper.move (hl : l.Proper n) {m : Move} (hcan : l.Can n m) :
    (l.move n m).Proper n := by
  cases m with
  | stay => exact hl
  | push r =>
    rw [hl.unborn hcan]
    refine ⟨?_, ?_, ?_⟩
    · simp [Life.move, Life.record, Request.context]
    · simp [Life.move, Life.record]
    · simp [Life.move, Life.record]
  | send known ret =>
    rw [Life.move]
    split
    next => exact hl
    next c rest hwait =>
      obtain ⟨hone, hctx, hslot, hrun, hres, hhist⟩ := hl.unsent (by rw [hwait]; simp)
      obtain rfl : rest = [] := by simpa [hwait] using hone
      have hborn : .pushed n ∈ l.history := by
        by_contra h
        rw [hl.unborn h] at hwait
        cases hwait
      have hseq : c.nReqSeq = n := hl.keyed c (.inl (by rw [hwait]; simp))
      have hproper : ∀ l' : Life, l'.waiting = [] → l'.history = l.history →
          (∀ c', l'.context = some c' → c'.nReqSeq = n) → l'.results = [] → l'.Proper n := by
        intro l' hw hh hc hr
        refine ⟨?_, fun h => absurd (hh ▸ hborn) h, fun h => absurd hw h⟩
        rintro c' (h | h | h)
        · rw [hw] at h
          cases h
        · exact hc c' h
        · rw [hr] at h
          cases h
      split
      · refine hproper _ rfl rfl ?_ hres
        intro c' hc'
        rw [show l.context = some c' from hc'] at hctx
        cases hctx
      · cases ret <;> exact hproper _ rfl rfl (by rintro c' ⟨⟩; exact hseq) hres
  | take uNum ret desMId =>
    rw [Life.move]
    split
    next => exact hl
    next c rest hres =>
      obtain ⟨hw, hr, hh, hc⟩ := answer_frame (n := n) uNum ret desMId c { l with results := rest }
      have hsent := hl.sent (.inr (hres ▸ List.cons_ne_nil _ _))
      refine hl.later hsent (hw.trans hsent.1) hh ?_ ?_
      · intro c' hc'
        obtain ⟨c₀, hc₀, hseq, _⟩ := hc c' hc'
        exact hseq.trans (hl.keyed c₀ (.inr (.inl hc₀)))
      · intro r hmem
        rw [hr] at hmem
        exact hl.keyed r (.inr (.inr (by rw [hres]; exact List.mem_cons_of_mem _ hmem)))
  | process taskinfo written => exact hl.callback (copies_onProcess taskinfo written)
  | finish taskinfo written => exact (hl.callback (copies_onFinish taskinfo written)).stop
  | error taskinfo => exact (hl.callback (copies_onError taskinfo)).stop
  | cancel =>
    rw [Life.move]
    split
    next hslot =>
      refine ⟨?_, fun h => absurd ?_ h, fun hwait => ?_⟩
      · rintro c (hc | hc | hc)
        · exact hl.keyed c (.inl hc)
        · cases hc
        · exact hl.keyed c (.inr (.inr hc))
      · exact List.mem_append_left _ hcan
      · rw [(hl.unsent hwait).2.2.1] at hslot
        cases hslot
    next =>
      refine ⟨hl.keyed, fun h => absurd ?_ h, fun hwait => ?_⟩
      · exact List.mem_append_left _ hcan
      · obtain ⟨hone, hctx, hslot, hrun, hres, hhist⟩ := hl.unsent hwait
        refine ⟨hone, hctx, hslot, hrun, hres, fun e he => ?_⟩
        rcases List.mem_append.mp he with he | he
        · exact hhist e he
        · exact .inr (List.mem_singleton.mp he)
  | lose => exact hl.stop

end Proper

/-! ### Places in every run -/

section Linked
variable {s s' : State} {n : ℕ}

theorem Linked.clear (h : Linked s) (k : ℕ) : Linked (clearSeqIdMap k s) := by
  rw [clearSeqIdMap]
  split
  next => exact h
  next t hk =>
    intro u m hu
    simp only [lookup_eraseKey] at hu ⊢
    split at hu
    next => cases hu
    next hut =>
      have hm := h u m hu
      have hmk : m ≠ k := by
        rintro rfl
        rw [hk] at hm
        exact hut (Option.some.inj hm).symm
      rw [if_neg hmk, hm]

theorem Linked.add (h : Linked s) {k : ℕ} (hslot : s.m_mapSeqNo2TaskId.lookup k = none)
    (type : TaskType) (ret : Option ℕ) : Linked (addTask k type ret s) := by
  cases ret with
  | none => exact h
  | some t =>
    intro u m hu
    simp only [addTask, lookup_setKey] at hu ⊢
    split at hu
    next hut =>
      cases hu
      rw [if_pos rfl, hut]
    next =>
      have hm := h u m hu
      have hmk : m ≠ k := by
        rintro rfl
        rw [hslot] at hm
        cases hm
      rw [if_neg hmk, hm]

theorem slot_clearSeqIdMap (s : State) (k : ℕ) :
    (clearSeqIdMap k s).m_mapSeqNo2TaskId.lookup k = none := by
  have hlife := congrArg Life.slot (life_clearSeqIdMap s k k)
  rw [if_pos rfl] at hlife
  exact hlife

theorem Linked.reReqUrl (h : Linked s) (strUrl : List Char) (c : HttpContext)
    (pArgument : Option (List ParamType)) (ret : Option ℕ) :
    Linked (reReqUrl strUrl c pArgument ret s) := by
  by_cases hurl : strUrl = []
  · cases pArgument <;> rw [Web.reReqUrl, if_pos hurl] <;> exact h
  · obtain ⟨type, htype⟩ := reReqUrl_eq hurl c pArgument ret s
    rw [htype, resubmit]
    split
    next => exact h.clear _
    next pCxt _ =>
      have hset : Linked ((clearSeqIdMap c.nReqSeq s).setRequest c.nReqSeq
          { pCxt with nFailedTime := c.nFailedTime }) := h.clear _
      exact hset.add (slot_clearSeqIdMap s c.nReqSeq) type ret

theorem Linked.deleteSeqNo (h : Linked s) (k : ℕ) : Linked (deleteSeqNo k s) := h.clear k

theorem Linked.taken (h : Linked s) (uNum : ℕ) (ret : Option ℕ) (c : HttpContext) :
    Linked (taken uNum ret c s) := by
  rw [Web.taken]
  split
  next => exact h
  next => exact h.reReqUrl _ _ _ _
  next =>
    split
    · exact Linked.deleteSeqNo (s := s.record _) h _
    · exact h
  next =>
    split
    · exact Linked.deleteSeqNo (s := s.record _) h _
    · exact h

theorem Linked.callback (h : Linked s) (body : HttpContext → HttpContext × List HttpContext)
    (taskid : ℕ) : Linked (callback body taskid s) := by
  obtain ⟨hmap, hslot⟩ := callback_maps body taskid s
  rw [Linked, hmap, hslot]
  exact h

/-- Requests that wait have no place yet, so places stay linked. -/
theorem Linked.step (h : Linked s) (hproper : ∀ n, (life s n).Proper n) {a : Act}
    (hs : step s a = some s') : Linked s' := by
  cases a with
  | pushUrl r =>
    cases hs
    exact h
  | cycleTrigged =>
    simp only [Web.step] at hs
    split at hs
    · cases hs
      exact h
    · cases hs
  | getResponse ret =>
    simp only [Web.step] at hs
    split at hs
    next uNum _ =>
      split at hs
      next =>
        cases hs
        cases hres : s.m_lstResult with
        | nil =>
          rw [getResponse_nil hres]
          exact h
        | cons c rest =>
          obtain ⟨main, hmain⟩ := getResponse_eq hres uNum ret
          rw [hmain]
          exact Linked.taken (s := { s with m_lstResult := rest }) h uNum ret c
      next => cases hs
    next => cases hs
  | sendUrl ret =>
    simp only [Web.step] at hs
    split at hs
    next nNum _ =>
      split at hs
      next =>
        cases hs
        rw [sendUrl]
        split
        next => exact h
        next c rest hqueue =>
          have hwait : (life s c.nReqSeq).waiting ≠ [] := by simp [life, hqueue]
          have hslot : s.m_mapSeqNo2TaskId.lookup c.nReqSeq = none :=
            ((hproper c.nReqSeq).unsent hwait).2.2.1
          have hset : Linked ({ s with m_vRequestQueue := rest }.setRequest c.nReqSeq c) := h
          by_cases hurl : c.strURL = []
          · rw [reqUrl, if_pos hurl]
            exact h
          · by_cases hrep : c.bAllowRepeated = false ∧
                isExistUrl c.strURL { s with m_vRequestQueue := rest } = true
            · rw [reqUrl, if_neg hurl, if_pos hrep]
              exact h
            · obtain ⟨type, htype⟩ := reqUrl_eq hurl hrep ret
              rw [htype]
              exact hset.add hslot type ret
      next => cases hs
    next => cases hs
  | process taskid taskinfo written =>
    simp only [Web.step] at hs
    split at hs
    · cases hs
      exact h.callback _ _
    · cases hs
  | finish taskid taskinfo written =>
    simp only [Web.step] at hs
    split at hs
    · cases hs
      exact h.callback _ _
    · cases hs
  | error taskid taskinfo =>
    simp only [Web.step] at hs
    split at hs
    · cases hs
      exact h.callback _ _
    · cases hs
  | cancelTask m =>
    simp only [Web.step] at hs
    split at hs
    · cases hs
      rw [cancelTask]
      split
      · exact h.clear m
      · exact h
    · cases hs

end Linked

/-! ### Numbers in every run -/

/-- The numbers have not come round. -/
def InRange (s : State) : Act → Prop
  | .pushUrl _ => s.m_nReqSeq + 1 < 2 ^ 32
  | _ => True

structure Base (s : State) : Prop where
  linked : Linked s
  numbered : ∀ n, .pushed n ∈ s.log → n ≤ s.m_nReqSeq
  proper : ∀ n, (life s n).Proper n

section Base
variable {s s' : State} {a : Act} {n : ℕ}

theorem Base.keyed (h : Base s) : Keyed s :=
  fun n c hc => (h.proper n).keyed c (.inr (.inl hc))

theorem base_init : Base {} where
  linked := by rintro t n ⟨⟩
  numbered := by simp
  proper := fun n => ⟨by simp [life], fun _ => rfl, fun h => absurd rfl h⟩

theorem mem_history {s : State} {e : Entry} : e ∈ (life s e.nReqSeq).history ↔ e ∈ s.log := by
  simp [life]

theorem Base.can (h : Base s) (hrange : InRange s a) (hs : step s a = some s') (n : ℕ) :
    (life s n).Can n (moveOf s n a) := by
  have hruns : ∀ taskid, taskid ∈ s.tasks → getSeqNo s taskid = some n →
      (life s n).running = true := fun taskid htask hseq =>
    runs_iff.mpr ⟨taskid, h.linked taskid n (getSeqNo_some hseq), getSeqNo_some hseq, htask⟩
  cases step_inv hs with
  | pushUrl r =>
    rw [moveOf]
    split
    next hn =>
      intro hmem
      have hle := h.numbered n (mem_history.mp hmem)
      have hnext : s.nextSeq = s.m_nReqSeq + 1 := Nat.mod_eq_of_lt hrange
      omega
    next => trivial
  | cycleTrigged => trivial
  | getResponse =>
    rw [moveOf]
    split
    next => split <;> [trivial; (split <;> trivial)]
    next => trivial
  | sendUrl =>
    rw [moveOf]
    split
    next => trivial
    next => split <;> trivial
  | @process taskid _ _ htask =>
    rw [moveOf]
    split
    next hseq => exact hruns taskid htask hseq
    next => trivial
  | @finish taskid _ _ htask =>
    rw [moveOf]
    split
    next hseq => exact hruns taskid htask hseq
    next => split <;> trivial
  | @error taskid _ htask =>
    rw [moveOf]
    split
    next hseq => exact hruns taskid htask hseq
    next => split <;> trivial
  | @cancelTask m hpushed =>
    rw [moveOf]
    split
    next hn =>
      rw [hn]
      exact mem_history (e := .pushed m).mpr hpushed
    next => split <;> trivial

theorem clearSeqIdMap_nReqSeq (k : ℕ) (s : State) :
    (clearSeqIdMap k s).m_nReqSeq = s.m_nReqSeq := by
  rw [clearSeqIdMap]
  split <;> rfl

theorem addTask_nReqSeq (k : ℕ) (type : TaskType) (ret : Option ℕ) (s : State) :
    (addTask k type ret s).m_nReqSeq = s.m_nReqSeq := by
  cases ret <;> rfl

theorem resubmit_nReqSeq (type : TaskType) (c : HttpContext) (ret : Option ℕ) (s : State) :
    (resubmit type c ret s).m_nReqSeq = s.m_nReqSeq := by
  rw [resubmit]
  split
  · rfl
  · exact addTask_nReqSeq _ _ _ _

theorem callback_nReqSeq (body : HttpContext → HttpContext × List HttpContext) (taskid : ℕ)
    (s : State) : (callback body taskid s).m_nReqSeq = s.m_nReqSeq := by
  rw [callback]
  split
  · rfl
  · split <;> rfl

theorem taken_nReqSeq (uNum : ℕ) (ret : Option ℕ) (c : HttpContext) (s : State) :
    (taken uNum ret c s).m_nReqSeq = s.m_nReqSeq := by
  rw [taken]
  split
  next => rfl
  next hp =>
    obtain ⟨type, htype⟩ := reReqUrl_eq (url_of_repeated hp) c.fail c.pArgument ret s
    rw [htype, resubmit_nReqSeq]
    exact clearSeqIdMap_nReqSeq _ _
  next =>
    split
    · exact clearSeqIdMap_nReqSeq _ _
    · rfl
  next =>
    split
    · exact clearSeqIdMap_nReqSeq _ _
    · rfl

/-- Numbers are given by `PushUrl` only. -/
theorem step_nReqSeq (hs : step s a = some s') :
    s'.m_nReqSeq = s.m_nReqSeq ∨ s'.m_nReqSeq = s.nextSeq ∧ ∃ r, a = .pushUrl r := by
  cases step_inv hs with
  | pushUrl r => exact .inr ⟨rfl, r, rfl⟩
  | cycleTrigged => exact .inl rfl
  | @getResponse uNum ret =>
    cases hres : s.m_lstResult with
    | nil =>
      rw [getResponse_nil hres]
      exact .inl rfl
    | cons c rest =>
      obtain ⟨main, hmain⟩ := getResponse_eq hres uNum ret
      rw [hmain]
      exact .inl (taken_nReqSeq _ _ _ _)
  | sendUrl =>
    rw [sendUrl]
    split
    next => exact .inl rfl
    next =>
      rw [reqUrl]
      split
      · exact .inl rfl
      · split
        · exact .inl rfl
        · split <;> exact .inl (addTask_nReqSeq _ _ _ _)
  | process => exact .inl (callback_nReqSeq _ _ _)
  | finish => exact .inl (callback_nReqSeq _ _ _)
  | error => exact .inl (callback_nReqSeq _ _ _)
  | cancelTask =>
    rw [cancelTask]
    split
    · exact .inl (clearSeqIdMap_nReqSeq _ _)
    · exact .inl rfl

theorem pushed_move {l : Life} {m : Move} (h : .pushed n ∈ (l.move n m).history) :
    .pushed n ∈ l.history ∨ ∃ r, m = .push r := by
  cases m with
  | stay => exact .inl h
  | push r => exact .inr ⟨r, rfl⟩
  | send known ret =>
    rw [Life.move] at h
    split at h
    · exact .inl h
    · split at h
      · exact .inl h
      · cases ret <;> exact .inl h
  | take uNum ret desMId =>
    rw [Life.move] at h
    split at h
    · exact .inl h
    next c rest _ =>
      left
      rw [Life.answer] at h
      split at h
      · exact h
      · rw [Life.retry] at h
        split at h
        · exact h
        · cases ret <;> exact h
      · split at h <;> simpa [Life.delete, Life.record, Life.unlink] using h
      · split at h
        · simpa [Life.delete, Life.record, Life.unlink] using h
        · exact h
  | process taskinfo written =>
    rw [Life.move, Life.callback] at h
    split at h <;> exact .inl h
  | finish taskinfo written =>
    rw [Life.move, Life.callback] at h
    split at h <;> exact .inl h
  | error taskinfo =>
    rw [Life.move, Life.callback] at h
    split at h <;> exact .inl h
  | cancel =>
    left
    rw [Life.move] at h
    split at h <;> simpa [Life.record, Life.unlink] using h
  | lose => exact .inl h

/-- Only `PushUrl` brings a number in, and only the next one. -/
theorem moveOf_push {n : ℕ} {r : Request} (h : moveOf s n a = .push r) :
    a = .pushUrl r ∧ n = s.nextSeq := by
  cases a with
  | pushUrl r' =>
    rw [moveOf] at h
    split at h
    next hn =>
      cases h
      exact ⟨rfl, hn⟩
    next => cases h
  | cycleTrigged => cases h
  | getResponse ret =>
    rw [moveOf] at h
    split at h
    · split at h
      · cases h
      · split at h <;> cases h
    · cases h
  | sendUrl ret =>
    rw [moveOf] at h
    split at h
    · cases h
    · split at h <;> cases h
  | process taskid taskinfo written =>
    rw [moveOf] at h
    split at h <;> cases h
  | finish taskid taskinfo written =>
    rw [moveOf] at h
    split at h
    · cases h
    · split at h <;> cases h
  | error taskid taskinfo =>
    rw [moveOf] at h
    split at h
    · cases h
    · split at h <;> cases h
  | cancelTask m =>
    rw [moveOf] at h
    split at h
    · cases h
    · split at h <;> cases h

theorem Base.step (h : Base s) (hrange : InRange s a) (hs : step s a = some s') : Base s' where
  linked := h.linked.step h.proper hs
  numbered := by
    intro n hn
    rw [← mem_history, show (Entry.pushed n).nReqSeq = n from rfl,
      life_step h.keyed h.linked hs] at hn
    have hnext : (∃ r, a = .pushUrl r) → s.nextSeq = s.m_nReqSeq + 1 := by
      rintro ⟨r, rfl⟩
      exact Nat.mod_eq_of_lt hrange
    rcases pushed_move hn with hn | ⟨r, hr⟩
    · have hle := h.numbered n (mem_history.mp hn)
      rcases step_nReqSeq hs with heq | ⟨heq, hpush⟩
      · omega
      · have := hnext hpush
        omega
    · obtain ⟨rfl, rfl⟩ := moveOf_push hr
      cases hs
      exact le_rfl
  proper := by
    intro n
    rw [life_step h.keyed h.linked hs]
    exact (h.proper n).move (h.can hrange hs n)

end Base

end UrlTraveler.Web
