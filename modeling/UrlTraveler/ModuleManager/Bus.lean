import UrlTraveler.Schemes.Circular
import UrlTraveler.Schemes.Runs

/-! `ModuleManagerImpl`: the event bus.

        PushEvent, PushMessage ───────────────────────────────┐
                                                              ▼
        PushAnsyc.. ──▶ m_vectorOut ──▶ m_vectorIn ──▶ m_eventMsgBuf ──▶ modules

    The synchronous route looks at the size of the buffer first, the asynchronous one does not: what
    is moved to a full buffer overwrites the oldest item. `OnCycleTrigger` empties the buffer; a
    handler it calls may push, and may start another cycle before it returns, with the other modules
    still waiting for the message it was called with. -/

namespace UrlTraveler.ModuleManager
open Circular Runs

/-! ### Items -/

/-- An event or a message, as it lies in a `BufUnit`. -/
structure BufUnit where
  value : BitVec 32
  srcMId : BitVec 16
  desMId : BitVec 16
  params : List (BitVec 32)
  extraInfo : Bool
  deriving DecidableEq

def isEventValue (x : BitVec 32) : Bool := x &&& 0xF0000000 = 0x10000000
def isMessageValue (x : BitVec 32) : Bool := x &&& 0xF0000000 = 0x20000000

def eventValueCoreMainLoopExit : BitVec 32 := 0x10002002
def moduleIdCore : BitVec 16 := 1

/-- `MakeMessage<MODULE_ID_CORE>()(MESSAGE_VALUE_CORE_CYCLE_TRIGGER)`. -/
def cycleTrigger : BufUnit where
  value := 0x20002002
  srcMId := moduleIdCore
  desMId := 0
  params := [0, 0, 0, 0]
  extraInfo := false

/-- What is called for an item. -/
inductive Call where
  | exit
  | processEvent (module : BitVec 16)
  | processMessage (module : BitVec 16)
  | paybackExtraInfo (module : BitVec 16)
  deriving DecidableEq

/-- The keys of `m_mapModulePoint`, in order. -/
structure Modules where
  ids : List (BitVec 16)
  nodup : ids.Nodup

def payback (modules : Modules) (u : BufUnit) : List Call :=
  if u.extraInfo ∧ u.srcMId ∈ modules.ids then [.paybackExtraInfo u.srcMId] else []

/-- The calls `OnCycleTrigger` makes for an item, in order. -/
def callsOf (modules : Modules) (u : BufUnit) : List Call :=
  if isEventValue u.value then
    if u.value = eventValueCoreMainLoopExit then [.exit]
    else if u.desMId ∈ modules.ids then .processEvent u.desMId :: payback modules u
    else []
  else if isMessageValue u.value then modules.ids.map .processMessage ++ payback modules u
  else []

/-! ### The bus -/

inductive Route where
  | sync
  | ansyc
  deriving DecidableEq

/-- An item in a buffer; `tag` tells it from the other items, and is not in the source. -/
structure Entry where
  tag : ℕ
  route : Route
  unit : BufUnit
  deriving DecidableEq

def capacity : ℕ := 10240

/-- The members of `ModuleManagerImpl`. `cycles` has, for every `OnCycleTrigger` that runs, the
    innermost first, the calls that are still to be made for its item. `accepted` and `calls` record
    what was taken in, and what was called. -/
structure Bus where
  m_eventMsgBuf : List Entry := []
  m_vectorOut : List Entry := []
  m_vectorIn : List Entry := []
  m_bRun : Bool := true
  cycles : List (List (ℕ × Call)) := []
  accepted : List Entry := []
  calls : List (ℕ × Call) := []

def Bus.entry (s : Bus) (route : Route) (u : BufUnit) : Entry := ⟨s.accepted.length, route, u⟩

/-- What `PushEvent` and `PushMessage` share: the result and the bus afterwards. -/
def pushSync (valid : Bool) (u : BufUnit) (s : Bus) : Bool × Bus :=
  if 10000 < s.m_eventMsgBuf.length then (false, s)
  else if valid then
    (true, { s with
      m_eventMsgBuf := pushBack capacity s.m_eventMsgBuf (s.entry .sync u)
      accepted := s.accepted ++ [s.entry .sync u] })
  else (true, s)

/-- What `PushAnsycEvent` and `PushAnsycMessage` share. -/
def pushAnsyc (valid : Bool) (u : BufUnit) (s : Bus) : Bool × Bus :=
  if valid then
    (true, { s with
      m_vectorOut := s.m_vectorOut ++ [s.entry .ansyc u]
      accepted := s.accepted ++ [s.entry .ansyc u] })
  else (false, s)

def pushEvent (evt : BufUnit) (s : Bus) : Bool × Bus := pushSync (isEventValue evt.value) evt s
def pushMessage (msg : BufUnit) (s : Bus) : Bool × Bus := pushSync (isMessageValue msg.value) msg s
def pushAnsycEvent (evt : BufUnit) (s : Bus) : Bool × Bus := pushAnsyc (isEventValue evt.value) evt s
def pushAnsycMessage (msg : BufUnit) (s : Bus) : Bool × Bus :=
  pushAnsyc (isMessageValue msg.value) msg s

/-- The pushes, and the parts of `OnCycleTrigger`: up to the swap, one item moved to the buffer, one
    item taken from it, one call, the end. -/
inductive Act where
  | pushEvent (evt : BufUnit)
  | pushMessage (msg : BufUnit)
  | pushAnsycEvent (evt : BufUnit)
  | pushAnsycMessage (msg : BufUnit)
  | beginCycle
  | transfer
  | takeFront
  | call
  | endCycle

/-- `OnCycleTrigger` up to the swap. -/
def beginCycle (s : Bus) : Bus :=
  let s := (pushMessage cycleTrigger s).2
  { s with m_vectorIn := s.m_vectorOut, m_vectorOut := [], cycles := [] :: s.cycles }

def step (modules : Modules) (s : Bus) : Act → Option Bus
  | .pushEvent evt => some (pushEvent evt s).2
  | .pushMessage msg => some (pushMessage msg s).2
  | .pushAnsycEvent evt => some (pushAnsycEvent evt s).2
  | .pushAnsycMessage msg => some (pushAnsycMessage msg s).2
  | .beginCycle => if s.m_vectorIn = [] then some (beginCycle s) else none
  | .transfer =>
    match s.m_vectorIn with
    | [] => none
    | e :: rest => some { s with
        m_eventMsgBuf := pushBack capacity s.m_eventMsgBuf e
        m_vectorIn := rest }
  | .takeFront =>
    match s.cycles, s.m_vectorIn, s.m_eventMsgBuf with
    | [] :: cycles, [], e :: buf => some { s with
        m_eventMsgBuf := buf
        cycles := (callsOf modules e.unit).map (e.tag, ·) :: cycles }
    | _, _, _ => none
  | .call =>
    match s.cycles with
    | (c :: rest) :: cycles => some { s with
        cycles := rest :: cycles
        calls := s.calls ++ [c]
        m_bRun := s.m_bRun && c.2 ≠ .exit }
    | _ => none
  | .endCycle =>
    match s.cycles, s.m_vectorIn, s.m_eventMsgBuf with
    | [] :: cycles, [], [] => some { s with cycles := cycles }
    | _, _, _ => none

/-! ### What is to be shown -/

/-- The buffers are empty, and no call is left to be made. -/
def Bus.Idle (s : Bus) : Prop :=
  s.m_eventMsgBuf = [] ∧ s.m_vectorOut = [] ∧ s.m_vectorIn = [] ∧ ∀ c ∈ s.cycles, c = []

/-- Every item that was taken in got each of its calls once. -/
def ExactlyOnce (modules : Modules) (s : Bus) : Prop :=
  ∀ e ∈ s.accepted, ∀ c ∈ callsOf modules e.unit, s.calls.count (e.tag, c) = 1

/-- Of two items of one route, the later one is called for only after the earlier one. -/
def InOrder (modules : Modules) (s : Bus) : Prop :=
  ∀ e ∈ s.accepted, ∀ f ∈ s.accepted, e.route = f.route → e.tag < f.tag →
    ∀ c ∈ callsOf modules e.unit, ∀ d ∈ callsOf modules f.unit,
      ∀ j : ℕ, s.calls[j]? = some (f.tag, d) → ∃ i < j, s.calls[i]? = some (e.tag, c)

def Delivers (modules : Modules) (s : Bus) : Prop :=
  (s.Idle → ExactlyOnce modules s) ∧ InOrder modules s

/-- The steps that lose or overtake nothing: an item is moved only to a buffer that is not full, and
    a cycle starts only when no other cycle has calls left to make. -/
def Safe (s : Bus) : Act → Prop
  | .transfer => s.m_eventMsgBuf.length < capacity
  | .beginCycle => ∀ c ∈ s.cycles, c = []
  | _ => True

instance (s : Bus) : DecidablePred (Safe s)
  | .transfer => inferInstanceAs (Decidable (s.m_eventMsgBuf.length < capacity))
  | .beginCycle => List.decidableBAll (· = []) s.cycles
  | .pushEvent _ | .pushMessage _ | .pushAnsycEvent _ | .pushAnsycMessage _ | .takeFront | .call
  | .endCycle => .isTrue trivial

/-! ### The invariant -/

variable {modules : Modules} {s s' : Bus}

/-- The calls for an entry. -/
def owed (modules : Modules) (e : Entry) : List (ℕ × Call) :=
  (callsOf modules e.unit).map (e.tag, ·)

/-- `D` lists the entries that were taken from the buffer, in that order. -/
structure Flow (modules : Modules) (s : Bus) (D : List Entry) : Prop where
  tags : s.accepted.map (·.tag) = List.range s.accepted.length
  waiting : ∀ e ∈ s.m_vectorIn ++ s.m_vectorOut, e.route = .ansyc
  fifo : ∀ r, (D ++ s.m_eventMsgBuf ++ s.m_vectorIn ++ s.m_vectorOut).filter (·.route = r) =
    s.accepted.filter (·.route = r)
  called : s.calls ++ s.cycles.flatten = D.flatMap (owed modules)
  outer : ∀ c ∈ s.cycles.tail, c = []

theorem Flow.sync {D : List Entry} (h : Flow modules s D) (u : BufUnit)
    (hroom : s.m_eventMsgBuf.length ≤ 10000) : Flow modules { s with
      m_eventMsgBuf := pushBack capacity s.m_eventMsgBuf (s.entry .sync u)
      accepted := s.accepted ++ [s.entry .sync u] } D where
  tags := by simp [h.tags, List.range_succ, Bus.entry]
  waiting := h.waiting
  fifo := by
    intro r
    have hnone : (s.m_vectorIn ++ s.m_vectorOut).filter (·.route = .sync) = [] := by
      rw [List.filter_eq_nil_iff]
      intro e he
      simp [h.waiting e he]
    have hfifo := h.fifo r
    rw [pushBack_of_lt (by rw [capacity]; omega)]
    cases r with
    | sync =>
      simp only [List.filter_append, List.append_assoc] at hfifo hnone ⊢
      simp [← hfifo, List.append_eq_nil_iff.mp hnone]
    | ansyc =>
      simp only [List.filter_append, List.append_assoc] at hfifo ⊢
      simp [← hfifo, Bus.entry]
  called := h.called
  outer := h.outer

theorem Flow.ansyc {D : List Entry} (h : Flow modules s D) (u : BufUnit) : Flow modules { s with
      m_vectorOut := s.m_vectorOut ++ [s.entry .ansyc u]
      accepted := s.accepted ++ [s.entry .ansyc u] } D where
  tags := by simp [h.tags, List.range_succ, Bus.entry]
  waiting := by
    intro e he
    rw [← List.append_assoc] at he
    rcases List.mem_append.mp he with he | he
    · exact h.waiting e he
    · rw [List.mem_singleton.mp he]
      rfl
  fifo := by
    intro r
    rw [← List.append_assoc, List.filter_append, h.fifo, List.filter_append]
  called := h.called
  outer := h.outer

theorem Flow.pushSync {D : List Entry} (h : Flow modules s D) (valid : Bool) (u : BufUnit) :
    Flow modules (pushSync valid u s).2 D := by
  rw [ModuleManager.pushSync]
  split
  · exact h
  · split
    · exact h.sync u (by omega)
    · exact h

theorem pushSync_frame (valid : Bool) (u : BufUnit) (s : Bus) :
    (pushSync valid u s).2.m_vectorIn = s.m_vectorIn ∧ (pushSync valid u s).2.cycles = s.cycles := by
  rw [pushSync]
  split
  · exact ⟨rfl, rfl⟩
  · split <;> exact ⟨rfl, rfl⟩

theorem Flow.pushAnsyc {D : List Entry} (h : Flow modules s D) (valid : Bool) (u : BufUnit) :
    Flow modules (pushAnsyc valid u s).2 D := by
  rw [ModuleManager.pushAnsyc]
  split
  · exact h.ansyc u
  · exact h

/-- Safe steps keep the lines in order. -/
theorem Flow.step {D : List Entry} (h : Flow modules s D) {a : Act} (hsafe : Safe s a)
    (hs : step modules s a = some s') : ∃ D', Flow modules s' D' := by
  cases a with
  | pushEvent evt =>
    cases hs
    exact ⟨D, h.pushSync _ _⟩
  | pushMessage msg =>
    cases hs
    exact ⟨D, h.pushSync _ _⟩
  | pushAnsycEvent evt =>
    cases hs
    exact ⟨D, h.pushAnsyc _ _⟩
  | pushAnsycMessage msg =>
    cases hs
    exact ⟨D, h.pushAnsyc _ _⟩
  | beginCycle =>
    simp only [ModuleManager.step] at hs
    split at hs
    case isFalse => cases hs
    case isTrue hin =>
      cases hs
      have hp : Flow modules (pushMessage cycleTrigger s).2 D := h.pushSync _ _
      obtain ⟨hin', hcyc⟩ : (pushMessage cycleTrigger s).2.m_vectorIn = [] ∧
          (pushMessage cycleTrigger s).2.cycles = s.cycles := by
        rw [pushMessage, (pushSync_frame _ _ _).1, (pushSync_frame _ _ _).2]
        exact ⟨hin, rfl⟩
      refine ⟨D, hp.tags, ?_, fun r => ?_, hp.called, ?_⟩
      · simpa [beginCycle, hin'] using hp.waiting
      · simpa [beginCycle, hin'] using hp.fifo r
      · intro c hc
        exact hsafe c (by rwa [← hcyc])
  | transfer =>
    simp only [ModuleManager.step] at hs
    split at hs
    case h_1 => cases hs
    case h_2 e rest hin =>
      cases hs
      refine ⟨D, h.tags, ?_, fun r => ?_, h.called, h.outer⟩
      · intro f hf
        exact h.waiting f (by rw [hin]; exact List.mem_cons_of_mem _ hf)
      · rw [← h.fifo r, hin, pushBack_of_lt hsafe]
        simp
  | takeFront =>
    simp only [ModuleManager.step] at hs
    split at hs
    case h_2 => cases hs
    case h_1 cycles e buf hcyc hin hbuf =>
      cases hs
      refine ⟨D ++ [e], h.tags, h.waiting, fun r => ?_, ?_, ?_⟩
      · rw [← h.fifo r, hbuf]
        simp
      · have hcalled := h.called
        have houter : cycles.flatten = [] := List.flatten_eq_nil_iff.mpr (by simpa [hcyc] using h.outer)
        simp only [hcyc, List.flatten_cons, houter, List.append_nil] at hcalled ⊢
        rw [hcalled, List.flatMap_append, List.flatMap_singleton]
        rfl
      · have := h.outer
        rw [hcyc] at this
        exact this
  | call =>
    simp only [ModuleManager.step] at hs
    split at hs
    case h_2 => cases hs
    case h_1 c rest cycles hcyc =>
      cases hs
      refine ⟨D, h.tags, h.waiting, h.fifo, ?_, ?_⟩
      · rw [← h.called, hcyc]
        simp
      · have := h.outer
        rw [hcyc] at this
        exact this
  | endCycle =>
    simp only [ModuleManager.step] at hs
    split at hs
    case h_2 => cases hs
    case h_1 cycles hcyc hin hbuf =>
      cases hs
      refine ⟨D, h.tags, h.waiting, h.fifo, ?_, ?_⟩
      · rw [← h.called, hcyc]
        simp
      · have := h.outer
        rw [hcyc] at this
        exact fun c hc => this c (List.mem_of_mem_tail hc)

/-! ### What it gives -/

theorem callsOf_nodup (modules : Modules) (u : BufUnit) : (callsOf modules u).Nodup := by
  have hpay : (payback modules u).Nodup := by
    rw [payback]
    split <;> simp
  rw [callsOf]
  split
  · split
    · simp
    · split
      · rw [List.nodup_cons, payback]
        split <;> simp
      · exact List.nodup_nil
  · split
    · refine (modules.nodup.map fun _ _ h => by cases h; rfl).append hpay ?_
      intro c hc hc'
      obtain ⟨m, _, rfl⟩ := List.mem_map.mp hc
      rw [payback] at hc'
      split at hc' <;> simp at hc'
    · exact List.nodup_nil

section
variable {D : List Entry} (h : Flow modules s D)
include h

theorem Flow.accepted_pairwise : s.accepted.Pairwise fun e f => e.tag < f.tag := by
  have := List.pairwise_lt_range (n := s.accepted.length)
  rw [← h.tags] at this
  exact List.pairwise_map.mp this

theorem Flow.inj {e f : Entry} (he : e ∈ s.accepted) (hf : f ∈ s.accepted) (ht : e.tag = f.tag) :
    e = f := by
  refine List.inj_on_of_nodup_map ?_ he hf ht
  rw [h.tags]
  exact List.nodup_range

theorem Flow.mem_accepted {e : Entry} (he : e ∈ D) : e ∈ s.accepted := by
  have : e ∈ (D ++ s.m_eventMsgBuf ++ s.m_vectorIn ++ s.m_vectorOut).filter (·.route = e.route) := by
    simp [he]
  rw [h.fifo] at this
  exact (List.mem_filter.mp this).1

/-- The calls owed for all accepted entries differ. -/
theorem Flow.owed_nodup : (s.accepted.flatMap (owed modules)).Nodup := by
  rw [List.nodup_flatMap]
  refine ⟨fun e _ => (callsOf_nodup modules e.unit).map fun _ _ h => by cases h; rfl, ?_⟩
  refine h.accepted_pairwise.imp fun {e f} hlt => ?_
  intro c hc hc'
  obtain ⟨_, _, rfl⟩ := List.mem_map.mp hc
  obtain ⟨_, _, heq⟩ := List.mem_map.mp hc'
  have := (Prod.mk.inj heq).1
  omega

/-- When nothing is left to do, everything accepted was taken from the buffer. -/
theorem Flow.perm (hidle : s.Idle) : D.Perm s.accepted := by
  obtain ⟨hbuf, hout, hin, _⟩ := hidle
  have hfifo : ∀ r, D.filter (·.route = r) = s.accepted.filter (·.route = r) := by
    intro r
    simpa [hbuf, hout, hin] using h.fifo r
  have hnot : ∀ l : List Entry, l.filter (fun e => !decide (e.route = .sync)) =
      l.filter (·.route = .ansyc) := by
    intro l
    refine List.filter_congr fun e _ => ?_
    cases e.route <;> rfl
  have hD := List.filter_append_perm (fun e : Entry => decide (e.route = .sync)) D
  have hA := List.filter_append_perm (fun e : Entry => decide (e.route = .sync)) s.accepted
  rw [hnot] at hD hA
  rw [hfifo, hfifo] at hD
  exact hD.symm.trans hA

theorem Flow.exactlyOnce (hidle : s.Idle) : ExactlyOnce modules s := by
  intro e he c hc
  have hcalls : s.calls.Perm (s.accepted.flatMap (owed modules)) := by
    have hcalled := h.called
    rw [List.flatten_eq_nil_iff.mpr hidle.2.2.2, List.append_nil] at hcalled
    rw [hcalled]
    exact (h.perm hidle).flatMap_right _
  rw [hcalls.count_eq]
  refine List.count_eq_one_of_mem h.owed_nodup ?_
  exact List.mem_flatMap.mpr ⟨e, he, List.mem_map_of_mem hc⟩

/-- Entries of one route are taken in the order in which they were accepted, none left out. -/
theorem Flow.before {e f : Entry} (he : e ∈ s.accepted) (hf : f ∈ D) (hr : e.route = f.route)
    (hlt : e.tag < f.tag) : ∃ A B, D = A ++ f :: B ∧ e ∈ A ∧ f ∉ A := by
  obtain ⟨A, B, rfl⟩ := List.append_of_mem hf
  refine ⟨A, B, rfl, ?_⟩
  have hmem : e ∈ s.accepted.filter (·.route = f.route) := List.mem_filter.mpr ⟨he, by simp [hr]⟩
  have hsorted : (s.accepted.filter (·.route = f.route)).Pairwise fun e f => e.tag < f.tag :=
    h.accepted_pairwise.sublist List.filter_sublist
  rw [← h.fifo] at hmem hsorted
  simp only [List.filter_append, List.filter_cons, decide_true, if_true, List.append_assoc,
    List.cons_append, List.mem_append, List.mem_cons] at hmem
  simp only [List.filter_append, List.filter_cons, decide_true, if_true, List.append_assoc,
    List.cons_append] at hsorted
  obtain ⟨_, hrest, hcross⟩ := List.pairwise_append.mp hsorted
  have hafter := (List.pairwise_cons.mp hrest).1
  refine ⟨?_, fun hfA => ?_⟩
  rotate_left
  · exact absurd (hcross f (List.mem_filter.mpr ⟨hfA, by simp⟩) f List.mem_cons_self) (lt_irrefl _)
  rcases hmem with hmem | rfl | hmem
  · exact (List.mem_filter.mp hmem).1
  · omega
  · -- what stands behind `f` has a larger tag
    have := hafter e (by simpa only [List.mem_append] using hmem)
    omega

theorem Flow.inOrder : InOrder modules s := by
  intro e he f hf hr hlt c hc d hd j hj
  have hjlt : j < s.calls.length := (List.getElem?_eq_some_iff.mp hj).1
  have hcalls : ∀ i < s.calls.length, (D.flatMap (owed modules))[i]? = s.calls[i]? := by
    intro i hi
    rw [← h.called, List.getElem?_append_left hi]
  -- the call for `f` was made for an entry of `D`, which is `f`
  have hfD : f ∈ D := by
    have hmem : (f.tag, d) ∈ D.flatMap (owed modules) :=
      List.mem_of_getElem? ((hcalls j hjlt).trans hj)
    obtain ⟨g, hg, hgd⟩ := List.mem_flatMap.mp hmem
    obtain ⟨_, _, heq⟩ := List.mem_map.mp hgd
    rwa [h.inj hf (h.mem_accepted hg) (Prod.mk.inj heq).1.symm]
  obtain ⟨A, B, rfl, heA, hfA⟩ := h.before he hfD hr hlt
  have hsplit : (A ++ f :: B).flatMap (owed modules) =
      A.flatMap (owed modules) ++ (f :: B).flatMap (owed modules) := List.flatMap_append
  have hle : (A.flatMap (owed modules)).length ≤ j := by
    by_contra hj'
    have hjA := (hcalls j hjlt).trans hj
    rw [hsplit, List.getElem?_append_left (by omega)] at hjA
    obtain ⟨g, hg, hgd⟩ := List.mem_flatMap.mp (List.mem_of_getElem? hjA)
    obtain ⟨_, _, heq⟩ := List.mem_map.mp hgd
    rw [h.inj (h.mem_accepted (List.mem_append_left _ hg)) hf (Prod.mk.inj heq).1] at hg
    exact hfA hg
  obtain ⟨i, hi⟩ := List.getElem?_of_mem (List.mem_flatMap.mpr
    ⟨e, heA, List.mem_map_of_mem (f := (e.tag, ·)) hc⟩ : (e.tag, c) ∈ A.flatMap (owed modules))
  have hilt : i < (A.flatMap (owed modules)).length := (List.getElem?_eq_some_iff.mp hi).1
  refine ⟨i, by omega, ?_⟩
  rw [← hcalls i (by omega), hsplit, List.getElem?_append_left hilt, hi]

end

/-- In a run of safe steps every item is delivered, once and in order. -/
theorem bus_delivers (modules : Modules) (acts : List Act)
    (hsafe : Along (step modules) Safe {} acts) :
    ∀ s ∈ states (step modules) {} acts, Delivers modules s := by
  intro s hs
  have hinit : ∃ D, Flow modules {} D :=
    ⟨[], rfl, by simp, fun r => rfl, rfl, by simp⟩
  obtain ⟨D, h⟩ := invariant (I := fun s => ∃ D, Flow modules s D)
    (fun s a s' ⟨D, h⟩ hok hstep => h.step hok hstep) acts {} hinit hsafe s hs
  exact ⟨h.exactlyOnce, h.inOrder⟩

/-- An event for the data centre, and a program with that module only. -/
def favoriteEvent : BufUnit where
  value := 0x10006001
  srcMId := 2
  desMId := 5
  params := [0, 0, 0, 0]
  extraInfo := false

def dataCenterOnly : Modules := ⟨[5], by decide⟩

/-- The event arrives in a cycle. -/
def oneCycle : List Act :=
  [.pushAnsycEvent favoriteEvent, .beginCycle, .transfer, .takeFront, .call, .takeFront, .call, .endCycle]

theorem bus_delivers_oneCycle : Along (step dataCenterOnly) Safe {} oneCycle ∧
    ∀ s ∈ states (step dataCenterOnly) {} oneCycle, Delivers dataCenterOnly s := by
  have hsafe : Along (step dataCenterOnly) Safe {} oneCycle := by decide
  exact ⟨hsafe, bus_delivers dataCenterOnly oneCycle hsafe⟩

/-! ### An overflow -/

/-- `n` asynchronous events before one cycle. -/
def flood (n : ℕ) : List Act :=
  List.replicate n (.pushAnsycEvent favoriteEvent) ++ (.beginCycle :: (List.replicate n .transfer ++
    ((List.replicate n [Act.takeFront, .call]).flatten ++ [.endCycle])))

def floodEntries (n : ℕ) : List Entry := (List.range n).map fun k => ⟨k, .ansyc, favoriteEvent⟩

theorem flood_push (n : ℕ) : (List.replicate n (Act.pushAnsycEvent favoriteEvent)).foldlM
    (step dataCenterOnly) {} = some { m_vectorOut := floodEntries n, accepted := floodEntries n } := by
  induction n with
  | zero => rfl
  | succ n ih =>
    rw [List.replicate_succ', List.foldlM_append, ih]
    have hentry : floodEntries (n + 1) = floodEntries n ++ [⟨n, .ansyc, favoriteEvent⟩] := by
      simp [floodEntries, List.range_succ]
    have hlen : (floodEntries n).length = n := by simp [floodEntries]
    simp [step, pushAnsycEvent, pushAnsyc, Bus.entry, hentry, hlen, favoriteEvent, isEventValue]

theorem flood_transfer (modules : Modules) : ∀ (l : List Entry) (s : Bus), s.m_vectorIn = l →
    (List.replicate l.length Act.transfer).foldlM (step modules) s = some { s with
      m_eventMsgBuf := l.foldl (pushBack capacity) s.m_eventMsgBuf
      m_vectorIn := [] }
  | [], s, h => by
    obtain ⟨_, _, _, _, _, _, _⟩ := s
    cases h
    rfl
  | e :: l, s, h => by
    rw [List.length_cons, List.replicate_succ, List.foldlM_cons]
    have hstep : step modules s .transfer = some { s with
        m_eventMsgBuf := pushBack capacity s.m_eventMsgBuf e
        m_vectorIn := l } := by rw [step, h]
    rw [hstep]
    exact flood_transfer modules l _ rfl

/-- Taking the entries of the flood from the buffer. -/
theorem flood_take : ∀ (l : List Entry) (s : Bus), s.cycles = [[]] → s.m_vectorIn = [] →
    s.m_eventMsgBuf = l → (∀ e ∈ l, e.unit = favoriteEvent) →
    ((List.replicate l.length [Act.takeFront, .call]).flatten).foldlM (step dataCenterOnly) s =
      some { s with
        m_eventMsgBuf := []
        calls := s.calls ++ l.flatMap (owed dataCenterOnly) }
  | [], s, hcyc, hin, hbuf, hl => by
    obtain ⟨_, _, _, _, _, _, _⟩ := s
    cases hbuf
    simp
  | e :: l, s, hcyc, hin, hbuf, hl => by
    have howed : owed dataCenterOnly e = [(e.tag, .processEvent 5)] := by
      rw [owed, hl e List.mem_cons_self]
      rfl
    have htake : step dataCenterOnly s .takeFront = some { s with
        m_eventMsgBuf := l
        cycles := [[(e.tag, .processEvent 5)]] } := by
      rw [step, hcyc, hin, hbuf, ← howed]
      rfl
    have hcall : step dataCenterOnly { s with
        m_eventMsgBuf := l
        cycles := [[(e.tag, .processEvent 5)]] } .call = some { s with
        m_eventMsgBuf := l
        cycles := [[]]
        calls := s.calls ++ [(e.tag, .processEvent 5)] } := by
      simp [step]
    have hrest := flood_take l { s with
      m_eventMsgBuf := l
      cycles := [[]]
      calls := s.calls ++ [(e.tag, .processEvent 5)] } rfl hin rfl
      fun f hf => hl f (List.mem_cons_of_mem _ hf)
    rw [List.length_cons, List.replicate_succ, List.flatten_cons, List.cons_append,
      foldlM_cons_some htake, List.cons_append, foldlM_cons_some hcall, List.nil_append, hrest,
      List.flatMap_cons, howed]
    simp [hcyc]

/-- The trigger of the cycle is overwritten: the state at the end has no call for it. -/
theorem flood_end {n : ℕ} (hn : n = capacity) : ∃ s, (flood n).foldlM (step dataCenterOnly) {} = some s ∧
    s.Idle ∧ s.accepted = floodEntries n ++ [⟨n, .sync, cycleTrigger⟩] ∧
    s.calls = (floodEntries n).flatMap (owed dataCenterOnly) := by
  have hlen : (floodEntries n).length = n := by simp [floodEntries]
  have hbegin : step dataCenterOnly { m_vectorOut := floodEntries n, accepted := floodEntries n }
      .beginCycle = some
        { m_eventMsgBuf := [⟨n, .sync, cycleTrigger⟩]
          m_vectorIn := floodEntries n
          cycles := [[]]
          accepted := floodEntries n ++ [⟨n, .sync, cycleTrigger⟩] } := by
    simp [step, beginCycle, pushMessage, pushSync, Bus.entry, hlen, pushBack, capacity, isMessageValue,
      cycleTrigger]
  have htrans := flood_transfer dataCenterOnly (floodEntries n)
    { m_eventMsgBuf := [⟨n, .sync, cycleTrigger⟩]
      m_vectorIn := floodEntries n
      cycles := [[]]
      accepted := floodEntries n ++ [⟨n, .sync, cycleTrigger⟩] } rfl
  have hbuf : (floodEntries n).foldl (pushBack capacity) [⟨n, .sync, cycleTrigger⟩] =
      floodEntries n := by
    rw [foldl_pushBack (by decide) _ _ (by rw [capacity]; simp), hlen, ← hn]
    simp
  rw [hlen, hbuf] at htrans
  have htake := flood_take (floodEntries n)
    { m_eventMsgBuf := floodEntries n
      cycles := [[]]
      accepted := floodEntries n ++ [⟨n, .sync, cycleTrigger⟩] } rfl rfl rfl (by simp [floodEntries])
  rw [hlen, List.nil_append] at htake
  refine ⟨{ accepted := floodEntries n ++ [⟨n, .sync, cycleTrigger⟩]
            calls := (floodEntries n).flatMap (owed dataCenterOnly) }, ?_, ?_, rfl, rfl⟩
  · rw [flood, foldlM_append_some (flood_push n), foldlM_cons_some hbegin, foldlM_append_some htrans,
      foldlM_append_some htake]
    rfl
  · exact ⟨rfl, rfl, rfl, by simp⟩

/-- Every event of the flood is taken in, and the cycle loses the message it starts with. -/
theorem bus_loses_flood :
    ¬ ∀ s ∈ states (step dataCenterOnly) {} (flood capacity), Delivers dataCenterOnly s := by
  intro h
  obtain ⟨s, hrun, hidle, hacc, hcalls⟩ := flood_end rfl
  have honce := (h s (mem_states_foldlM hrun)).1 hidle ⟨capacity, .sync, cycleTrigger⟩
    (by rw [hacc]; simp) (.processMessage 5) (by decide)
  rw [hcalls, List.count_eq_zero_of_not_mem] at honce
  · cases honce
  · intro hmem
    obtain ⟨e, he, hc⟩ := List.mem_flatMap.mp hmem
    obtain ⟨k, hk, rfl⟩ := List.mem_map.mp he
    obtain ⟨_, _, heq⟩ := List.mem_map.mp hc
    have hk' : k = capacity := (Prod.mk.inj heq).1
    have := List.mem_range.mp hk
    omega

end UrlTraveler.ModuleManager
