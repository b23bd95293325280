import UrlTraveler.Schemes.Runs

/-! `CTrayMgr`: the registry of event handlers.

    Both functions look a handler up with `find(begin(), end() - 1, pHandler)` and compare the result
    with `end()`. The range leaves out the last entry, and a failed search returns `end() - 1`:

        handlers      a  b  c            find c, find x   ──▶  c
                            ▲  ▲
                            │  end()
                        end() - 1

    So in a registry that is not empty every search succeeds: nothing is added to it, and a handler
    that is not there is deleted as the last one. -/

namespace UrlTraveler.TrayIcon
open Runs

variable {H : Type} [DecidableEq H]

/-- `find(begin(), end() - 1, pHandler)`, as an index; the range of an empty vector is not asked
    for. -/
def findHandler (m_vecTrayEventHandler : List H) (pHandler : H) : ℕ :=
  m_vecTrayEventHandler.dropLast.findIdx (· = pHandler)

def addEventHandler (m_vecTrayEventHandler : List H) (pHandler : H) : List H :=
  if m_vecTrayEventHandler = [] ∨
      findHandler m_vecTrayEventHandler pHandler = m_vecTrayEventHandler.length then
    m_vecTrayEventHandler ++ [pHandler]
  else m_vecTrayEventHandler

/-- The two `ASSERT(0)` do nothing. -/
def deleteEventHandler (m_vecTrayEventHandler : List H) (pHandler : H) : List H :=
  if m_vecTrayEventHandler ≠ [] then
    let it := findHandler m_vecTrayEventHandler pHandler
    if it ≠ m_vecTrayEventHandler.length then m_vecTrayEventHandler.eraseIdx it
    else m_vecTrayEventHandler
  else m_vecTrayEventHandler

/-! ### Calls -/

inductive Call (H : Type)
  | add (pHandler : H)
  | delete (pHandler : H)
  deriving DecidableEq

def Call.handler : Call H → H
  | .add pHandler => pHandler
  | .delete pHandler => pHandler

def Call.isAdd : Call H → Bool
  | .add _ => true
  | .delete _ => false

/-- The handler was added more recently than it was deleted. -/
def Registered (calls : List (Call H)) (h : H) : Prop :=
  (calls.reverse.find? (·.handler = h)).any (·.isAdd) = true

/-- The vector, and the calls so far. -/
structure Registry (H : Type) where
  m_vecTrayEventHandler : List H := []
  calls : List (Call H) := []

def call (s : Registry H) : Call H → Option (Registry H)
  | .add pHandler => some ⟨addEventHandler s.m_vecTrayEventHandler pHandler, s.calls ++ [.add pHandler]⟩
  | .delete pHandler =>
    some ⟨deleteEventHandler s.m_vecTrayEventHandler pHandler, s.calls ++ [.delete pHandler]⟩

/-- The vector holds the registered handlers, each once. -/
structure Registry.IsSet (s : Registry H) : Prop where
  nodup : s.m_vecTrayEventHandler.Nodup
  mem_iff : ∀ h, h ∈ s.m_vecTrayEventHandler ↔ Registered s.calls h

/-- Deleting a handler that is not registered changes nothing. -/
def KeepsOthers (s : Registry H) (c : Call H) : Prop :=
  ∀ pHandler, c = .delete pHandler → ¬ Registered s.calls pHandler →
    deleteEventHandler s.m_vecTrayEventHandler pHandler = s.m_vecTrayEventHandler

/-- No handler is registered, or this one is. -/
def AloneOrEmpty (s : Registry H) (c : Call H) : Prop :=
  (∃ h, Registered s.calls h) → Registered s.calls c.handler

/-! ### What the calls do -/

theorem findHandler_ne {l : List H} (hl : l ≠ []) (h : H) : findHandler l h ≠ l.length := by
  have hle : findHandler l h ≤ l.dropLast.length := List.findIdx_le_length
  have hpos := List.length_pos_iff.mpr hl
  rw [List.length_dropLast] at hle
  omega

theorem addEventHandler_eq (l : List H) (h : H) :
    addEventHandler l h = if l = [] then [h] else l := by
  rw [addEventHandler]
  by_cases hl : l = []
  · simp [hl]
  · rw [if_neg hl, if_neg fun hor => hor.elim hl (findHandler_ne hl h)]

/-- With one handler in the vector, it is the one that goes. -/
theorem deleteEventHandler_singleton (g h : H) : deleteEventHandler [g] h = [] := rfl

theorem deleteEventHandler_nil (h : H) : deleteEventHandler [] h = [] := rfl

theorem registered_concat (calls : List (Call H)) (c : Call H) (h : H) :
    Registered (calls ++ [c]) h ↔ if c.handler = h then c.isAdd = true else Registered calls h := by
  rw [Registered, List.reverse_append, List.reverse_singleton, List.singleton_append,
    List.find?_cons]
  by_cases hc : c.handler = h <;> simp [hc, Registered]

/-! ### Runs -/

/-- What is known while nothing has gone wrong. -/
structure Registry.Small (s : Registry H) : Prop extends s.IsSet where
  length_le : s.m_vecTrayEventHandler.length ≤ 1

theorem Registry.Small.cases {s : Registry H} (h : s.Small) :
    (s.m_vecTrayEventHandler = [] ∧ ∀ g, ¬ Registered s.calls g) ∨
    ∃ g, s.m_vecTrayEventHandler = [g] ∧ ∀ g', Registered s.calls g' ↔ g' = g := by
  cases hl : s.m_vecTrayEventHandler with
  | nil =>
    refine .inl ⟨rfl, fun g hg => ?_⟩
    have hmem := (h.mem_iff g).mpr hg
    rw [hl] at hmem
    cases hmem
  | cons g l =>
    have hle := h.length_le
    rw [hl, List.length_cons] at hle
    obtain rfl : l = [] := List.eq_nil_of_length_eq_zero (by omega)
    refine .inr ⟨g, rfl, fun g' => ?_⟩
    rw [← h.mem_iff, hl, List.mem_singleton]

/-- A call that finds no handler, or its own, leaves its own or none. -/
theorem call_alone {s s' : Registry H} {c : Call H} (h : s.Small) (hok : AloneOrEmpty s c)
    (hs : call s c = some s') :
    s'.m_vecTrayEventHandler = (if c.isAdd then [c.handler] else []) ∧
      ∀ g, Registered s'.calls g ↔ c.isAdd = true ∧ g = c.handler := by
  have hcalls : s'.calls = s.calls ++ [c] := by cases c <;> cases hs <;> rfl
  have hothers : ∀ g, Registered s.calls g → g = c.handler := by
    intro g hg
    rcases h.cases with ⟨_, hnone⟩ | ⟨g₀, _, hone⟩
    · exact absurd hg (hnone g)
    · rw [(hone g).mp hg, (hone c.handler).mp (hok ⟨g, hg⟩)]
  constructor
  · rcases h.cases with ⟨hl, _⟩ | ⟨g, hl, hone⟩
    · cases c with
      | add p =>
        cases hs
        simp [addEventHandler_eq, hl, Call.isAdd, Call.handler]
      | delete p =>
        cases hs
        simp [hl, deleteEventHandler_nil, Call.isAdd]
    · have hg := (hone c.handler).mp (hok ⟨g, (hone g).mpr rfl⟩)
      cases c with
      | add p =>
        cases hs
        simp [addEventHandler_eq, hl, Call.isAdd, hg]
      | delete p =>
        cases hs
        simp [hl, deleteEventHandler_singleton, Call.isAdd]
  · intro g
    rw [hcalls, registered_concat]
    split
    next hg => simp [hg]
    next hg => exact iff_of_false (fun h => hg (hothers g h).symm) fun h => hg h.2.symm

theorem call_small {s s' : Registry H} {c : Call H} (h : s.Small) (hok : AloneOrEmpty s c)
    (hs : call s c = some s') : s'.Small := by
  obtain ⟨hl, hreg⟩ := call_alone h hok hs
  refine ⟨⟨?_, fun g => ?_⟩, ?_⟩
  · rw [hl]
    split <;> simp
  · rw [hl, hreg]
    split <;> simp_all
  · rw [hl]
    split <;> simp

/-- Any other call loses a handler. -/
theorem call_not_isSet {s s' : Registry H} {c : Call H} (h : s.Small) (hbad : ¬ AloneOrEmpty s c)
    (hs : call s c = some s') : ¬ s'.IsSet := by
  obtain ⟨⟨g₀, hg₀⟩, hc⟩ := Classical.not_imp.mp hbad
  rcases h.cases with ⟨_, hnone⟩ | ⟨g, hl, hone⟩
  · exact absurd hg₀ (hnone g₀)
  · rw [hone] at hc
    intro hset
    cases c with
    | add p =>
      -- the new handler is not in the vector
      cases hs
      have hmem := (hset.mem_iff p).mpr (by rw [registered_concat]; simp [Call.handler, Call.isAdd])
      rw [addEventHandler_eq, hl, if_neg (List.cons_ne_nil _ _), List.mem_singleton] at hmem
      exact hc hmem
    | delete p =>
      -- the old one has gone with it
      cases hs
      have hstill : Registered (s.calls ++ [.delete p]) g := by
        rw [registered_concat, if_neg hc, hone]
      have hmem := (hset.mem_iff g).mpr hstill
      rw [hl, deleteEventHandler_singleton] at hmem
      cases hmem

theorem keepsOthers_of_small {s : Registry H} {c : Call H} (h : s.Small) (hok : AloneOrEmpty s c) :
    KeepsOthers s c := by
  rintro p rfl hp
  rcases h.cases with ⟨hl, _⟩ | ⟨g, hl, hone⟩
  · rw [hl]
    rfl
  · exact absurd (hok ⟨g, (hone g).mpr rfl⟩) hp

/-- REGISTRY: along a run of calls the vector is the set of registered handlers exactly when every
    call finds no handler registered, or its own. -/
theorem registry_isSet_iff (calls : List (Call H)) :
    ((∀ t ∈ states call {} calls, t.IsSet) ∧ Along call KeepsOthers {} calls) ↔
      Along call AloneOrEmpty {} calls := by
  have hstart : Registry.Small ({} : Registry H) := by
    refine ⟨⟨List.nodup_nil, fun h => ?_⟩, Nat.zero_le 1⟩
    simp [Registered]
  have hiff : (∀ t ∈ states call ({} : Registry H) calls, t.IsSet) ↔
      Along call AloneOrEmpty {} calls :=
    invariant_iff (fun _ h => Registry.Small.toIsSet h) (fun _ _ _ h hok => call_small h hok)
      (fun _ _ _ h hbad => call_not_isSet h hbad) calls {} hstart
  refine ⟨fun h => hiff.mp h.1, fun h => ⟨hiff.mpr h, ?_⟩⟩
  have hsmall : ∀ t ∈ states call ({} : Registry H) calls, t.Small :=
    invariant (fun _ _ _ h hok => call_small h hok) calls {} hstart h
  exact (h.and hsmall).mono fun s c hok => keepsOthers_of_small hok.2 hok.1

/-- A second handler is not added, and deleting it deletes the first. -/
theorem registry_not_isSet :
    (call ({ m_vecTrayEventHandler := [1], calls := [.add 1] } : Registry ℕ) (.add 2)).map
        (·.m_vecTrayEventHandler) = some [1] ∧
    (call ({ m_vecTrayEventHandler := [1], calls := [.add 1] } : Registry ℕ) (.delete 2)).map
        (·.m_vecTrayEventHandler) = some [] ∧
    (¬ ∀ t ∈ states call ({} : Registry ℕ) [.add 1, .add 2], t.IsSet) ∧
    ¬ ∀ t ∈ states call ({} : Registry ℕ) [.add 1, .delete 2], t.IsSet := by
  refine ⟨rfl, rfl, fun h => ?_, fun h => ?_⟩
  · have hlast := h ⟨[1], [.add 1, .add 2]⟩ (by simp [states, call, addEventHandler_eq])
    have hmem := (hlast.mem_iff 2).mpr (by simp [Registered, Call.handler, Call.isAdd])
    simp at hmem
  · have hlast := h ⟨[], [.add 1, .delete 2]⟩
      (by simp [states, call, addEventHandler_eq, deleteEventHandler_singleton])
    have hmem := (hlast.mem_iff 1).mpr (by simp [Registered, Call.handler, Call.isAdd])
    cases hmem

end UrlTraveler.TrayIcon
