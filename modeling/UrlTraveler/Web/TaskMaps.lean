import UrlTraveler.Web.Lives

/-! The maps of `CHttpClient` between tasks and requests.

        m_mapSeqNo2TaskId   number ──▶ task
        m_mapTaskid2Seqno   task ──▶ number
        m_mapRequest        number ──▶ context

    Every function that enters a pair in the first two enters it in both, and has made room for it
    before; a number is noted with a task only while its context is kept. Here no task id is given
    twice. -/

namespace UrlTraveler.Web
open Maps Runs

/-- `CHttpClient::CleanAll`, which is what `CRequestManager::Clear` calls. -/
def cleanAll (s : State) : State :=
  { s with m_mapRequest := [], m_mapTaskid2Seqno := [], m_mapSeqNo2TaskId := [], m_lstResult := [] }

/-- The operations; `queue` is what `m_vRequestQueue` holds when `ReqUrl` looks at it. -/
inductive Op where
  | reqUrl (queue : List HttpContext) (c : HttpContext) (ret : Option ℕ)
  | reReqUrl (strUrl : List Char) (c : HttpContext) (pArgument : Option (List ParamType))
      (ret : Option ℕ)
  | cancelTask (nSeqNo : ℕ)
  | clear
  | deleteSeqNo (nSeqNo : ℕ)

/-- The client, with the numbers and the task ids that were used. -/
structure Client where
  state : State := {}
  numbers : List ℕ := []
  ids : List ℕ := []

def Client.step (s : Client) : Op → Option Client
  | .reqUrl queue c ret =>
    if c.nReqSeq ∉ s.numbers ∧ ∀ taskId ∈ ret, taskId ∉ s.ids then
      some {
        state := reqUrl c ret { s.state with m_vRequestQueue := queue }
        numbers := c.nReqSeq :: s.numbers
        ids := ret.toList ++ s.ids }
    else none
  | .reReqUrl strUrl c pArgument ret =>
    if ∀ taskId ∈ ret, taskId ∉ s.ids then
      some { s with state := reReqUrl strUrl c pArgument ret s.state, ids := ret.toList ++ s.ids }
    else none
  | .cancelTask nSeqNo => some { s with state := cancelTask nSeqNo s.state }
  | .clear => some { s with state := cleanAll s.state }
  | .deleteSeqNo nSeqNo => some { s with state := deleteSeqNo nSeqNo s.state }

/-- The two maps are inverse to each other, and every number with a task has a context. -/
structure MapsAgree (s : State) : Prop where
  inverse : Inverse s.m_mapSeqNo2TaskId s.m_mapTaskid2Seqno
  requested : ∀ n, (s.m_mapSeqNo2TaskId.lookup n).isSome → (s.m_mapRequest.lookup n).isSome

/-- And all numbers and task ids in the maps were used. -/
structure Tracked (numbers ids : List ℕ) (s : State) : Prop extends MapsAgree s where
  numbers : ∀ n, (s.m_mapRequest.lookup n).isSome → n ∈ numbers
  ids : ∀ t, (s.m_mapTaskid2Seqno.lookup t).isSome → t ∈ ids

section Operations
variable {s : State} {numbers ids : List ℕ}

theorem isSome_eraseKey {α : Type} {m : List (ℕ × α)} {k n : ℕ}
    (h : ((eraseKey m k).lookup n).isSome) : (m.lookup n).isSome := by
  rw [lookup_eraseKey] at h
  split at h
  · cases h
  · exact h

theorem Tracked.clearSeqIdMap (h : Tracked numbers ids s) (k : ℕ) :
    Tracked numbers ids (clearSeqIdMap k s) := by
  rw [Web.clearSeqIdMap]
  split
  next => exact h
  next t hk =>
    exact {
      inverse := h.inverse.eraseKey hk
      requested := fun n hn => h.requested n (isSome_eraseKey hn)
      numbers := h.numbers
      ids := fun u hu => h.ids u (isSome_eraseKey hu) }

/-- A context may go once no task is noted for it. -/
theorem Tracked.eraseRequest (h : Tracked numbers ids s) {k : ℕ}
    (hk : s.m_mapSeqNo2TaskId.lookup k = none) : Tracked numbers ids (s.eraseRequest k) where
  inverse := h.inverse
  requested := by
    intro n hn
    have hne : n ≠ k := by
      rintro rfl
      rw [show (s.eraseRequest n).m_mapSeqNo2TaskId = s.m_mapSeqNo2TaskId from rfl, hk] at hn
      cases hn
    simp only [State.eraseRequest, lookup_eraseKey, if_neg hne]
    exact h.requested n hn
  numbers := fun n hn => h.numbers n (isSome_eraseKey hn)
  ids := h.ids

theorem Tracked.setRequest (h : Tracked numbers ids s) {k : ℕ} (hk : k ∈ numbers)
    (c : HttpContext) : Tracked numbers ids (s.setRequest k c) where
  inverse := h.inverse
  requested := by
    intro n hn
    simp only [State.setRequest, lookup_setKey]
    split
    · rfl
    · exact h.requested n hn
  numbers := by
    intro n hn
    simp only [State.setRequest, lookup_setKey] at hn
    split at hn
    next hnk => exact hnk ▸ hk
    next => exact h.numbers n hn
  ids := h.ids

theorem Tracked.addTask (h : Tracked numbers ids s) {k : ℕ}
    (hctx : (s.m_mapRequest.lookup k).isSome) (hslot : s.m_mapSeqNo2TaskId.lookup k = none)
    (type : TaskType) {ret : Option ℕ} (hfresh : ∀ t ∈ ret, t ∉ ids) :
    Tracked numbers (ret.toList ++ ids) (addTask k type ret s) := by
  cases ret with
  | none => exact h
  | some t =>
    have ht : s.m_mapTaskid2Seqno.lookup t = none :=
      Option.not_isSome_iff_eq_none.mp fun hsome => hfresh t rfl (h.ids t hsome)
    refine ⟨⟨(h.inverse.setKey_iff k t).mpr (.inl ⟨hslot, ht⟩), fun n hn => ?_⟩, h.numbers, ?_⟩
    · simp only [Web.addTask, lookup_setKey] at hn
      split at hn
      next hnk => exact hnk ▸ hctx
      next => exact h.requested n hn
    · intro u hu
      simp only [Web.addTask, lookup_setKey] at hu
      split at hu
      next hut => simp [hut]
      next => exact List.mem_append_right _ (h.ids u hu)

theorem Tracked.resubmit (h : Tracked numbers ids s) (type : TaskType) (c : HttpContext)
    (hslot : s.m_mapSeqNo2TaskId.lookup c.nReqSeq = none) {ret : Option ℕ}
    (hfresh : ∀ t ∈ ret, t ∉ ids) :
    Tracked numbers (ret.toList ++ ids) (resubmit type c ret s) := by
  rw [Web.resubmit]
  split
  next =>
    exact { h with ids := fun t ht => List.mem_append_right _ (h.ids t ht) }
  next pCxt hctx =>
    refine Tracked.addTask (h.setRequest (h.numbers _ (by rw [hctx]; rfl)) _) ?_ hslot type hfresh
    simp [State.setRequest, lookup_setKey]

theorem Tracked.widen (h : Tracked numbers ids s) {numbers' ids' : List ℕ}
    (hnumbers : numbers ⊆ numbers') (hids : ids ⊆ ids') : Tracked numbers' ids' s :=
  { h with numbers := fun n hn => hnumbers (h.numbers n hn), ids := fun t ht => hids (h.ids t ht) }

theorem Tracked.reReqUrl (h : Tracked numbers ids s) (strUrl : List Char) (c : HttpContext)
    (pArgument : Option (List ParamType)) {ret : Option ℕ} (hfresh : ∀ t ∈ ret, t ∉ ids) :
    Tracked numbers (ret.toList ++ ids) (reReqUrl strUrl c pArgument ret s) := by
  by_cases hurl : strUrl = []
  · have hsame : Web.reReqUrl strUrl c pArgument ret s = s := by
      cases pArgument <;> exact if_pos hurl
    rw [hsame]
    exact h.widen (fun _ => id) (List.subset_append_right _ _)
  · obtain ⟨type, htype⟩ := reReqUrl_eq hurl c pArgument ret s
    rw [htype]
    exact (h.clearSeqIdMap _).resubmit type c (slot_clearSeqIdMap s c.nReqSeq) hfresh

theorem Tracked.reqUrl (h : Tracked numbers ids s) {c : HttpContext} (hc : c.nReqSeq ∉ numbers)
    {ret : Option ℕ} (hfresh : ∀ t ∈ ret, t ∉ ids) :
    Tracked (c.nReqSeq :: numbers) (ret.toList ++ ids) (reqUrl c ret s) := by
  have hwiden : Tracked (c.nReqSeq :: numbers) ids s :=
    h.widen (List.subset_cons_self _ _) (fun _ => id)
  -- The number is fresh, so no task is noted for it.
  have hslot : s.m_mapSeqNo2TaskId.lookup c.nReqSeq = none :=
    Option.not_isSome_iff_eq_none.mp fun hsome => hc (h.numbers _ (h.requested _ hsome))
  by_cases hurl : c.strURL = []
  · rw [Web.reqUrl, if_pos hurl]
    exact hwiden.widen (fun _ => id) (List.subset_append_right _ _)
  · by_cases hrep : c.bAllowRepeated = false ∧ isExistUrl c.strURL s = true
    · rw [Web.reqUrl, if_neg hurl, if_pos hrep]
      exact hwiden.widen (fun _ => id) (List.subset_append_right _ _)
    · obtain ⟨type, htype⟩ := reqUrl_eq hurl hrep ret
      rw [htype]
      refine Tracked.addTask (hwiden.setRequest List.mem_cons_self c) ?_ hslot type hfresh
      simp [State.setRequest, lookup_setKey]

theorem Tracked.record (h : Tracked numbers ids s) (e : Entry) : Tracked numbers ids (s.record e) :=
  ⟨⟨h.inverse, h.requested⟩, h.numbers, h.ids⟩

theorem Tracked.cancelTask (h : Tracked numbers ids s) (k : ℕ) :
    Tracked numbers ids (cancelTask k s) := by
  rw [Web.cancelTask]
  split
  · exact ((h.clearSeqIdMap k).eraseRequest (slot_clearSeqIdMap s k)).record _
  · exact h.record _

theorem Tracked.deleteSeqNo (h : Tracked numbers ids s) (k : ℕ) :
    Tracked numbers ids (deleteSeqNo k s) :=
  ((h.clearSeqIdMap k).eraseRequest (slot_clearSeqIdMap s k)).record _

theorem tracked_empty {s : State} (hreq : s.m_mapRequest = []) (htask : s.m_mapTaskid2Seqno = [])
    (hseq : s.m_mapSeqNo2TaskId = []) (numbers ids : List ℕ) : Tracked numbers ids s where
  inverse := by
    intro n t
    rw [hseq, htask]
    simp
  requested := by simp [hseq]
  numbers := by simp [hreq]
  ids := by simp [htask]

end Operations

theorem Client.tracked_step {s s' : Client} {op : Op} (h : Tracked s.numbers s.ids s.state)
    (hs : s.step op = some s') : Tracked s'.numbers s'.ids s'.state := by
  cases op with
  | reqUrl queue c ret =>
    simp only [Client.step] at hs
    split at hs
    next hfresh =>
      cases hs
      exact Tracked.reqUrl (s := { s.state with m_vRequestQueue := queue })
        ⟨⟨h.inverse, h.requested⟩, h.numbers, h.ids⟩ hfresh.1 hfresh.2
    next => cases hs
  | reReqUrl strUrl c pArgument ret =>
    simp only [Client.step] at hs
    split at hs
    next hfresh =>
      cases hs
      exact h.reReqUrl strUrl c pArgument hfresh
    next => cases hs
  | cancelTask nSeqNo =>
    cases hs
    exact h.cancelTask nSeqNo
  | clear =>
    cases hs
    exact tracked_empty rfl rfl rfl _ _
  | deleteSeqNo nSeqNo =>
    cases hs
    exact h.deleteSeqNo nSeqNo

/-- After every operation of every sequence the maps agree. -/
theorem mapsAgree_states (ops : List Op) : ∀ t ∈ states Client.step {} ops, MapsAgree t.state := by
  intro t ht
  have htracked := invariant_always (I := fun s : Client => Tracked s.numbers s.ids s.state)
    (fun s op s' h hs => Client.tracked_step h hs) ops {} (tracked_empty rfl rfl rfl _ _) t ht
  exact htracked.toMapsAgree

/-- A download and a POST; the download is sent again, the POST is deleted. -/
def mixed : List Op :=
  [.reqUrl [] { nReqSeq := 101, strURL := ['u'] } (some 0),
    .reqUrl [] { nReqSeq := 102, strURL := ['v'], pArgument := some [.text] } (some 1),
    .reReqUrl ['u'] { nReqSeq := 101, strURL := ['u'], nFailedTime := 1 } none (some 2),
    .deleteSeqNo 102]

theorem mixed_runs : (mixed.foldlM Client.step {}).isSome = true := by decide +kernel

theorem mapsAgree_mixed : MapsAgree (Option.get _ mixed_runs).state :=
  mapsAgree_states mixed _ (mem_states_foldlM (Option.some_get mixed_runs).symm)

end UrlTraveler.Web
