import UrlTraveler.Schemes.Runs

/-! `CTrayMgr`: flashing icons and who is told when they stop.

    A flash is an item on `m_stackFlash`, and the last one is shown. What the handlers hear of the
    end of flashes goes through `FireOnTrayEvent`, whose loop over the handlers calls, for
    WM_TRAYFLASHSTOPPED, another loop over the handlers:

        handlers a, b:    a.OnTrayEvent   a.OnFlashEnd  b.OnFlashEnd
                          b.OnTrayEvent   a.OnFlashEnd  b.OnFlashEnd

    And a pick of the last flash says WM_TRAYALLFLASHSTOPPED itself, after `StopFlash` has said it.
    So with two handlers every single stop is announced twice, and a pick that empties the stack
    announces it twice to everyone. Handlers do not call back. -/

namespace UrlTraveler.TrayIcon
open Runs

/-- What `Flash` is given for an icon: NULL, `Use_Current_HICON`, or a handle. -/
inductive FlashIcon
  | null | current | handle (hicon : ℕ)
  deriving DecidableEq

/-- `STrayFlashStackItem`. -/
structure FlashItem where
  hicon : ℕ
  dwParam : ℕ
  deriving DecidableEq

/-- `ETrayFlashStopMode`. -/
inductive StopMode
  | click | doubleClick
  deriving DecidableEq

/-- What `TrayWndProc` is called for: the `lParam` of a callback, or the timer. -/
inductive TrayMsg
  | lButtonDown | lButtonDblClk | lButtonDownLate | rButtonDown | rButtonUp | mouseMovePost
  | mouseMove | timer
  deriving DecidableEq

/-- The second argument of `OnTrayEvent`. -/
inductive TrayEventId
  | msg (l : TrayMsg)
  | flashStopped
  | allFlashStopped
  deriving DecidableEq

/-- The functions of `ITrayEvent`. -/
inductive Notice
  | onTrayEvent (w : ℕ) (l : TrayEventId)
  | onFlashStart (dwParam : ℕ)
  | onFlashEnd (dwParam : ℕ)
  deriving DecidableEq

/-- `CTrayMgr`, with what its handlers have been told. Of `m_nid` only the icon and whether
    `cbSize` is set are read. -/
structure Tray (H : Type) where
  m_vecTrayEventHandler : List H
  m_stackFlash : List FlashItem := []
  m_bFlashing : Bool := false
  m_bWaitForDblClk : Bool := false
  m_eTFSMode : StopMode := .doubleClick
  hIcon : Option ℕ := none
  cbSize : Bool := true
  log : List (H × Notice) := []

variable {H : Type}

namespace Tray

/-! ### Telling the handlers -/

def fireOnFlashEnd (s : Tray H) (dwParam : ℕ) : List (H × Notice) :=
  s.m_vecTrayEventHandler.map fun it => (it, .onFlashEnd dwParam)

def fireOnFlashStart (s : Tray H) (dwParam : ℕ) : Tray H :=
  { s with log := s.log ++ s.m_vecTrayEventHandler.map fun it => (it, .onFlashStart dwParam) }

def fireOnTrayEvent (s : Tray H) (w : ℕ) (l : TrayEventId) : Tray H :=
  { s with log := s.log ++ s.m_vecTrayEventHandler.flatMap fun it =>
      (it, .onTrayEvent w l) :: if l = .flashStopped then s.fireOnFlashEnd w else [] }

@[simp] theorem fireOnTrayEvent_stack (s : Tray H) (w : ℕ) (l : TrayEventId) :
    (s.fireOnTrayEvent w l).m_stackFlash = s.m_stackFlash := rfl

@[simp] theorem fireOnTrayEvent_handlers (s : Tray H) (w : ℕ) (l : TrayEventId) :
    (s.fireOnTrayEvent w l).m_vecTrayEventHandler = s.m_vecTrayEventHandler := rfl

@[simp] theorem fireOnTrayEvent_flashing (s : Tray H) (w : ℕ) (l : TrayEventId) :
    (s.fireOnTrayEvent w l).m_bFlashing = s.m_bFlashing := rfl

/-! ### The functions -/

def flash (s : Tray H) (hiconNew : FlashIcon) (dwParam : ℕ) : Tray H :=
  match hiconNew, s.hIcon with
  | .null, _ | .current, none => s
  | .current, some hicon => push hicon
  | .handle hicon, _ => if s.cbSize then push hicon else s
where
  push (hicon : ℕ) : Tray H :=
    { s with m_stackFlash := s.m_stackFlash ++ [FlashItem.mk hicon dwParam],
             m_bFlashing := true }.fireOnFlashStart dwParam

/-- The item at an index; an index outside the vector is undefined behaviour. -/
def itemAt (s : Tray H) (nIndex : ℤ) : Option FlashItem :=
  if 0 ≤ nIndex then s.m_stackFlash[nIndex.toNat]? else none

/-- What `StopFlash` does to a stack with something on it. -/
def removeFlash (s : Tray H) (nIndex : ℤ) : Tray H :=
  if nIndex = -1 ∨ nIndex = s.m_stackFlash.length - 1 then
    let s := { s with m_stackFlash := s.m_stackFlash.dropLast }
    if s.m_stackFlash = [] then { s with m_bFlashing := false }.fireOnTrayEvent 0 .allFlashStopped
    else s
  else { s with m_stackFlash := s.m_stackFlash.eraseIdx nIndex.toNat }

/-- `StopFlash(nIndex)`, with -1 for the last one. -/
def stopFlash (s : Tray H) (nIndex : ℤ) : Option (Tray H) :=
  if s.m_stackFlash = [] then some s
  else if nIndex = -1 then some (s.removeFlash nIndex)
  else (s.itemAt nIndex).map fun item =>
    (s.fireOnTrayEvent item.dwParam .flashStopped).removeFlash nIndex

def stopAllFlash (s : Tray H) : Tray H :=
  if s.m_stackFlash = [] then s
  else { s with m_stackFlash := [], m_bFlashing := false }.fireOnTrayEvent 0 .allFlashStopped

/-- What a pick does while something flashes: the same lines in `TrayWndProc` (twice) and
    `FakePickMsg`. -/
def pick (s : Tray H) : Option (Tray H) :=
  (s.m_stackFlash.getLast?).bind fun item =>
    ((s.fireOnTrayEvent item.dwParam .flashStopped).stopFlash (-1)).map fun s =>
      if s.m_stackFlash = [] then s.fireOnTrayEvent 0 .allFlashStopped else s

def fakePickMsg (s : Tray H) : Option (Tray H) :=
  if s.m_bFlashing then s.pick else some (s.fireOnTrayEvent 0 (.msg .lButtonDown))

def trayWndProc (s : Tray H) (wParam : ℕ) : TrayMsg → Option (Tray H)
  | .lButtonDown =>
    let s := { s with m_bWaitForDblClk := true }
    if s.m_bFlashing then if s.m_eTFSMode = .click then s.pick else some s
    else some (s.fireOnTrayEvent wParam (.msg .lButtonDown))
  | .lButtonDblClk =>
    let s := { s with m_bWaitForDblClk := false }
    if s.m_bFlashing then if s.m_eTFSMode = .doubleClick then s.pick else some s
    else some (s.fireOnTrayEvent wParam (.msg .lButtonDblClk))
  | .mouseMove => some s
  | .timer =>
    -- the timer of a click that was not followed by a second one
    if s.m_bWaitForDblClk then
      some ({ s with m_bWaitForDblClk := false }.fireOnTrayEvent 0 (.msg .lButtonDownLate))
    else some s
  | l => some (s.fireOnTrayEvent wParam (.msg l))

end Tray

/-! ### Steps -/

inductive TrayAct
  | flash (hiconNew : FlashIcon) (dwParam : ℕ)
  | stopFlash (nIndex : ℤ)
  | stopAllFlash
  | fakePickMsg
  | trayMsg (l : TrayMsg) (wParam : ℕ)
  deriving DecidableEq

def trayStep (s : Tray H) : TrayAct → Option (Tray H)
  | .flash hiconNew dwParam => some (s.flash hiconNew dwParam)
  | .stopFlash nIndex => s.stopFlash nIndex
  | .stopAllFlash => some s.stopAllFlash
  | .fakePickMsg => s.fakePickMsg
  | .trayMsg l wParam => s.trayWndProc wParam l

/-- The action is a pick of the flash that is shown. -/
def picks (s : Tray H) : TrayAct → Bool
  | .fakePickMsg => s.m_bFlashing
  | .trayMsg .lButtonDown _ => s.m_bFlashing && s.m_eTFSMode = .click
  | .trayMsg .lButtonDblClk _ => s.m_bFlashing && s.m_eTFSMode = .doubleClick
  | _ => false

/-- The parameter of the one flash that is stopped, by a pick or by its index. -/
def stopped (s : Tray H) (a : TrayAct) : Option ℕ :=
  if picks s a then (s.m_stackFlash.getLast?).map (·.dwParam)
  else match a with
    | .stopFlash nIndex => if nIndex = -1 then none else (s.itemAt nIndex).map (·.dwParam)
    | _ => none

/-! ### What the handlers hear -/

section Counting
variable [DecidableEq H]

/-- How often a handler was told that a flash ended. -/
def ends (log : List (H × Notice)) (h : H) (w : ℕ) : ℕ := log.count (h, .onFlashEnd w)

/-- How often a handler was told that none is left. -/
def alls (log : List (H × Notice)) (h : H) : ℕ := log.count (h, .onTrayEvent 0 .allFlashStopped)

variable {s : Tray H} {h : H}

theorem ends_fireOnFlashStart (dwParam w : ℕ) :
    ends (s.fireOnFlashStart dwParam).log h w = ends s.log h w := by
  have hzero : (s.m_vecTrayEventHandler.map fun it => (it, Notice.onFlashStart dwParam)).count
      (h, .onFlashEnd w) = 0 := List.count_eq_zero.mpr (by simp)
  rw [ends, Tray.fireOnFlashStart, List.count_append, hzero]
  rfl

theorem alls_fireOnFlashStart (dwParam : ℕ) : alls (s.fireOnFlashStart dwParam).log h = alls s.log h := by
  have hzero : (s.m_vecTrayEventHandler.map fun it => (it, Notice.onFlashStart dwParam)).count
      (h, .onTrayEvent 0 .allFlashStopped) = 0 := List.count_eq_zero.mpr (by simp)
  rw [alls, Tray.fireOnFlashStart, List.count_append, hzero]
  rfl

variable (hnd : s.m_vecTrayEventHandler.Nodup) (hh : h ∈ s.m_vecTrayEventHandler)
include hnd hh

theorem count_map_handlers (n m : Notice) :
    (s.m_vecTrayEventHandler.map fun it => (it, n)).count (h, m) = if n = m then 1 else 0 := by
  split
  next he =>
    subst he
    have hinj : Function.Injective fun it : H => (it, n) := fun a b hab => (Prod.mk.inj hab).1
    rw [List.count_map_of_injective _ _ hinj, List.count_eq_one_of_mem hnd hh]
  next hne =>
    refine List.count_eq_zero.mpr fun hmem => hne ?_
    obtain ⟨_, _, he⟩ := List.mem_map.mp hmem
    exact (Prod.mk.inj he).2

/-- The inner loop is run once for each handler. -/
theorem ends_fireOnTrayEvent (w w' : ℕ) (l : TrayEventId) :
    ends (s.fireOnTrayEvent w l).log h w' = ends s.log h w' +
      if l = .flashStopped ∧ w = w' then s.m_vecTrayEventHandler.length else 0 := by
  have hinner : ∀ it : H, List.count (h, Notice.onFlashEnd w')
      ((it, Notice.onTrayEvent w l) :: if l = .flashStopped then s.fireOnFlashEnd w else []) =
        if l = .flashStopped ∧ w = w' then 1 else 0 := by
    intro it
    rw [List.count_cons_of_ne (by simp)]
    by_cases hl : l = .flashStopped
    · rw [if_pos hl, Tray.fireOnFlashEnd, count_map_handlers hnd hh]
      simp [hl]
    · simp [hl]
  rw [ends, Tray.fireOnTrayEvent, List.count_append, List.count_flatMap]
  simp only [Function.comp_def, hinner, List.map_const', List.sum_replicate]
  rw [← ends]
  split <;> simp

theorem alls_fireOnTrayEvent (w : ℕ) (l : TrayEventId) :
    alls (s.fireOnTrayEvent w l).log h = alls s.log h + if l = .allFlashStopped ∧ w = 0 then 1 else 0 := by
  have hinner : ∀ it : H, List.count (h, Notice.onTrayEvent 0 .allFlashStopped)
      ((it, Notice.onTrayEvent w l) :: if l = .flashStopped then s.fireOnFlashEnd w else []) =
        List.count (h, Notice.onTrayEvent 0 .allFlashStopped) [(it, Notice.onTrayEvent w l)] := by
    intro it
    have hzero : (if l = .flashStopped then s.fireOnFlashEnd w else []).count
        (h, Notice.onTrayEvent 0 .allFlashStopped) = 0 := by
      refine List.count_eq_zero.mpr fun hmem => ?_
      split at hmem
      · simp [Tray.fireOnFlashEnd] at hmem
      · cases hmem
    rw [← List.singleton_append, List.count_append, hzero, Nat.add_zero]
  have hmap := count_map_handlers hnd hh (.onTrayEvent w l) (.onTrayEvent 0 .allFlashStopped)
  rw [List.map_eq_flatMap, List.count_flatMap] at hmap
  rw [alls, Tray.fireOnTrayEvent, List.count_append, List.count_flatMap]
  simp only [Function.comp_def, hinner] at hmap ⊢
  rw [hmap, ← alls]
  congr 1
  simp [and_comm]

end Counting

/-! ### What a step does -/

/-- `m_bFlashing` says whether there is a flash. -/
def Flashing (s : Tray H) : Prop := s.m_bFlashing = true ↔ s.m_stackFlash ≠ []

section Steps
variable [DecidableEq H] {s s' : Tray H}

/-- What is heard in a step: of the end of a flash as often as there are handlers, and of an empty
    stack once, or twice after a pick. -/
structure Effect (s : Tray H) (a : TrayAct) (s' : Tray H) : Prop where
  handlers : s'.m_vecTrayEventHandler = s.m_vecTrayEventHandler
  flashing : Flashing s'
  ends : ∀ h ∈ s.m_vecTrayEventHandler, ∀ w, ends s'.log h w =
    ends s.log h w + if stopped s a = some w then s.m_vecTrayEventHandler.length else 0
  alls : ∀ h ∈ s.m_vecTrayEventHandler, alls s'.log h = alls s.log h +
    if s.m_stackFlash ≠ [] ∧ s'.m_stackFlash = [] then if picks s a then 2 else 1 else 0
  last : picks s a = true → (s'.m_stackFlash = [] ↔ s.m_stackFlash.length = 1)

/-- An action that is no pick: an empty stack is heard of once. -/
theorem effect_of_not_picks {a : TrayAct} (hp : picks s a = false)
    (hhandlers : s'.m_vecTrayEventHandler = s.m_vecTrayEventHandler) (hflash : Flashing s')
    (hends : ∀ h ∈ s.m_vecTrayEventHandler, ∀ w, ends s'.log h w =
      ends s.log h w + if stopped s a = some w then s.m_vecTrayEventHandler.length else 0)
    (halls : ∀ h ∈ s.m_vecTrayEventHandler, alls s'.log h = alls s.log h +
      if s.m_stackFlash ≠ [] ∧ s'.m_stackFlash = [] then 1 else 0) : Effect s a s' where
  handlers := hhandlers
  flashing := hflash
  ends := hends
  alls h hh := by
    rw [halls h hh, hp]
    rfl
  last h := by
    rw [hp] at h
    cases h

/-- An action that leaves the stack alone and fires an event of its own. -/
theorem effect_fire (hnd : s.m_vecTrayEventHandler.Nodup) (hf : Flashing s) {a : TrayAct}
    (hp : picks s a = false) (hstop : stopped s a = none) (w : ℕ) (l : TrayMsg) (b : Bool) :
    Effect s a ({ s with m_bWaitForDblClk := b }.fireOnTrayEvent w (.msg l)) := by
  refine effect_of_not_picks hp rfl hf (fun h hh w' => ?_) fun h hh => ?_
  · have hfire := ends_fireOnTrayEvent (s := { s with m_bWaitForDblClk := b }) hnd hh w w' (.msg l)
    simpa [hstop] using hfire
  · have hfire := alls_fireOnTrayEvent (s := { s with m_bWaitForDblClk := b }) hnd hh w (.msg l)
    rw [if_neg (by simp)] at hfire
    rw [if_neg fun hn => hn.1 hn.2]
    exact hfire

theorem effect_stay (hf : Flashing s) {a : TrayAct} (hp : picks s a = false)
    (hstop : stopped s a = none) (b : Bool) : Effect s a { s with m_bWaitForDblClk := b } := by
  refine effect_of_not_picks hp rfl hf (fun h hh w' => ?_) fun h hh => ?_
  · rw [hstop, if_neg (by simp)]
    rfl
  · rw [if_neg fun hn => hn.1 hn.2]
    rfl

/-- What is heard when the last flash goes. -/
theorem heard_emptied (hnd : s.m_vecTrayEventHandler.Nodup) {h : H}
    (hh : h ∈ s.m_vecTrayEventHandler) {t : Tray H}
    (ht : t = { s with m_stackFlash := [], m_bFlashing := false }.fireOnTrayEvent 0 .allFlashStopped) :
    (∀ w, ends t.log h w = ends s.log h w) ∧ alls t.log h = alls s.log h + 1 := by
  subst ht
  constructor
  · intro w
    have hfire := ends_fireOnTrayEvent (s := { s with m_stackFlash := [], m_bFlashing := false }) hnd hh
      0 w .allFlashStopped
    simpa using hfire
  · have hfire := alls_fireOnTrayEvent (s := { s with m_stackFlash := [], m_bFlashing := false }) hnd hh
      0 .allFlashStopped
    simpa using hfire

omit [DecidableEq H] in
/-- Under the flash that is shown there is never the only one. -/
theorem others_left {nIndex : ℤ} (hsome : (s.itemAt nIndex).isSome)
    (hlast : nIndex ≠ s.m_stackFlash.length - 1) :
    s.m_stackFlash.length ≠ 1 ∧ s.m_stackFlash.eraseIdx nIndex.toNat ≠ [] := by
  rw [Tray.itemAt] at hsome
  split at hsome
  next h0 =>
    obtain ⟨item, hitem⟩ := Option.isSome_iff_exists.mp hsome
    have hlt := (List.getElem?_eq_some_iff.mp hitem).1
    refine ⟨by omega, ?_⟩
    rw [← List.length_pos_iff, List.length_eraseIdx_of_lt hlt]
    omega
  next => cases hsome

/-- `removeFlash` takes one flash off, and says so when it was the last. -/
theorem removeFlash_spec (hnd : s.m_vecTrayEventHandler.Nodup) (hf : Flashing s)
    (hne : s.m_stackFlash ≠ []) {nIndex : ℤ} (hi : nIndex = -1 ∨ (s.itemAt nIndex).isSome) :
    (s.removeFlash nIndex).m_vecTrayEventHandler = s.m_vecTrayEventHandler ∧
      Flashing (s.removeFlash nIndex) ∧
      ((s.removeFlash nIndex).m_stackFlash = [] ↔ s.m_stackFlash.length = 1) ∧
      ∀ h ∈ s.m_vecTrayEventHandler, (∀ w, ends (s.removeFlash nIndex).log h w = ends s.log h w) ∧
        alls (s.removeFlash nIndex).log h =
          alls s.log h + if (s.removeFlash nIndex).m_stackFlash = [] then 1 else 0 := by
  have hpos := List.length_pos_iff.mpr hne
  have hflag : s.m_bFlashing = true := hf.mpr hne
  rw [Tray.removeFlash]
  by_cases hlast : nIndex = -1 ∨ nIndex = s.m_stackFlash.length - 1
  · rw [if_pos hlast]
    have hdrop : s.m_stackFlash.dropLast = [] ↔ s.m_stackFlash.length = 1 := by
      rw [← List.length_eq_zero_iff, List.length_dropLast]
      omega
    by_cases hempty : s.m_stackFlash.dropLast = []
    · simp only [hempty, if_true]
      refine ⟨rfl, by simp [Flashing, Tray.fireOnTrayEvent], ?_, fun h hh => ?_⟩
      · exact iff_of_true rfl (hdrop.mp hempty)
      · exact heard_emptied hnd hh rfl
    · simp only [hempty, if_false]
      refine ⟨trivial, by simp [Flashing, hflag, hempty], ?_, fun h hh => by simp⟩
      rw [← hdrop]
      exact iff_of_false (fun h => h) hempty
  · -- some flash further down
    rw [if_neg hlast]
    rw [not_or] at hlast
    obtain ⟨hlen, hmore⟩ := others_left (hi.resolve_left hlast.1) hlast.2
    refine ⟨rfl, by simp [Flashing, hflag, hmore], iff_of_false hmore hlen, fun h hh =>
      ⟨fun w => rfl, ?_⟩⟩
    rw [if_neg hmore]
    rfl

/-- A flash stopped by its index. -/
theorem stopFlash_effect (hnd : s.m_vecTrayEventHandler.Nodup) (hf : Flashing s) {nIndex : ℤ}
    (hs : s.stopFlash nIndex = some s') : Effect s (.stopFlash nIndex) s' := by
  have hp : picks s (.stopFlash nIndex) = false := rfl
  rw [Tray.stopFlash] at hs
  by_cases hne : s.m_stackFlash = []
  · rw [if_pos hne] at hs
    cases hs
    refine effect_stay hf hp ?_ s.m_bWaitForDblClk
    simp [stopped, hp, Tray.itemAt, hne]
  · rw [if_neg hne] at hs
    by_cases hlast : nIndex = -1
    · rw [if_pos hlast] at hs
      cases hs
      obtain ⟨hhand, hflash, _, hheard⟩ := removeFlash_spec hnd hf hne (.inl hlast)
      refine effect_of_not_picks hp hhand hflash (fun h hh w => ?_) fun h hh => ?_
      · rw [(hheard h hh).1 w]
        simp [stopped, picks, hlast]
      · rw [(hheard h hh).2]
        simp [hne]
    · rw [if_neg hlast] at hs
      obtain ⟨item, hitem, rfl⟩ := Option.map_eq_some_iff.mp hs
      obtain ⟨hhand, hflash, _, hheard⟩ :=
        removeFlash_spec (s := s.fireOnTrayEvent item.dwParam .flashStopped) hnd hf hne
          (.inr (Option.isSome_iff_exists.mpr ⟨item, hitem⟩))
      refine effect_of_not_picks hp hhand hflash (fun h hh w => ?_) fun h hh => ?_
      · rw [(hheard h hh).1 w, ends_fireOnTrayEvent hnd hh]
        simp [stopped, hp, hlast, hitem]
      · rw [(hheard h hh).2, alls_fireOnTrayEvent hnd hh]
        simp [hne]

/-- A pick takes the last flash, and announces an empty stack once more. -/
theorem pick_effect (hnd : s.m_vecTrayEventHandler.Nodup) (hf : Flashing s) {a : TrayAct}
    (hp : picks s a = true) (b : Bool)
    (hs : ({ s with m_bWaitForDblClk := b } : Tray H).pick = some s') : Effect s a s' := by
  obtain ⟨item, hitem, hs⟩ := Option.bind_eq_some_iff.mp hs
  have hlast : s.m_stackFlash.getLast? = some item := hitem
  have hne : s.m_stackFlash ≠ [] := by
    intro h
    rw [h] at hlast
    cases hlast
  obtain ⟨t, ht, rfl⟩ := Option.map_eq_some_iff.mp hs
  simp only [Tray.stopFlash, Tray.fireOnTrayEvent_stack, hne, if_false, if_true] at ht
  cases ht
  obtain ⟨hhand, hflash, hlen, hheard⟩ := removeFlash_spec
    (s := ({ s with m_bWaitForDblClk := b } : Tray H).fireOnTrayEvent item.dwParam .flashStopped)
    hnd hf hne (.inl (Eq.refl (-1 : ℤ)))
  set t := (({ s with m_bWaitForDblClk := b } : Tray H).fireOnTrayEvent item.dwParam
    .flashStopped).removeFlash (-1) with ht
  have hends : ∀ h ∈ s.m_vecTrayEventHandler, ∀ w, ends t.log h w = ends s.log h w +
      if stopped s a = some w then s.m_vecTrayEventHandler.length else 0 := by
    intro h hh w
    have hfire := ends_fireOnTrayEvent (s := { s with m_bWaitForDblClk := b }) hnd hh item.dwParam w
      .flashStopped
    rw [(hheard h hh).1 w, hfire]
    simp [stopped, hp, hlast]
  have halls : ∀ h ∈ s.m_vecTrayEventHandler,
      alls t.log h = alls s.log h + if t.m_stackFlash = [] then 1 else 0 := by
    intro h hh
    have hfire := alls_fireOnTrayEvent (s := { s with m_bWaitForDblClk := b }) hnd hh item.dwParam
      .flashStopped
    rw [(hheard h hh).2, hfire]
    simp
  have htnd : t.m_vecTrayEventHandler.Nodup := hhand ▸ hnd
  by_cases hempty : t.m_stackFlash = []
  · rw [if_pos hempty]
    refine ⟨hhand, hflash, fun h hh w => ?_, fun h hh => ?_, fun _ => hlen⟩
    · rw [ends_fireOnTrayEvent htnd (hhand ▸ hh), hends h hh]
      simp
    · rw [alls_fireOnTrayEvent htnd (hhand ▸ hh), halls h hh]
      simp [hempty, hne, hp]
  · rw [if_neg hempty]
    refine ⟨hhand, hflash, hends, fun h hh => ?_, fun _ => hlen⟩
    rw [halls h hh]
    simp [hempty]

theorem flash_effect (hf : Flashing s) (hiconNew : FlashIcon) (dwParam : ℕ) :
    Effect s (.flash hiconNew dwParam) (s.flash hiconNew dwParam) := by
  have hp : picks s (.flash hiconNew dwParam) = false := rfl
  have hstop : stopped s (.flash hiconNew dwParam) = none := rfl
  have hpush : ∀ hicon, Effect s (.flash hiconNew dwParam) (Tray.flash.push s dwParam hicon) := by
    intro hicon
    have hflash : Flashing (Tray.flash.push s dwParam hicon) := by
      simp [Flashing, Tray.flash.push, Tray.fireOnFlashStart]
    refine effect_of_not_picks hp rfl hflash (fun h hh w => ?_) fun h hh => ?_
    · rw [Tray.flash.push, ends_fireOnFlashStart, hstop]
      simp
    · rw [Tray.flash.push, alls_fireOnFlashStart]
      simp [Tray.fireOnFlashStart]
  rw [Tray.flash.eq_def]
  split
  · exact effect_stay hf hp hstop s.m_bWaitForDblClk
  · exact effect_stay hf hp hstop s.m_bWaitForDblClk
  · exact hpush _
  · split
    · exact hpush _
    · exact effect_stay hf hp hstop s.m_bWaitForDblClk

theorem stopAllFlash_effect (hnd : s.m_vecTrayEventHandler.Nodup) (hf : Flashing s) :
    Effect s .stopAllFlash s.stopAllFlash := by
  rw [Tray.stopAllFlash]
  split
  next => exact effect_stay hf rfl rfl s.m_bWaitForDblClk
  next hne =>
    refine effect_of_not_picks rfl rfl (by simp [Flashing]) (fun h hh w => ?_) fun h hh => ?_
    · rw [(heard_emptied hnd hh rfl).1 w, if_neg (by simp [stopped, picks])]
      rfl
    · rw [(heard_emptied hnd hh rfl).2, if_pos ⟨hne, rfl⟩]

/-- A click, which picks the flash in one mode and is passed on when nothing flashes. -/
theorem click_effect (hnd : s.m_vecTrayEventHandler.Nodup) (hf : Flashing s) {l : TrayMsg}
    {wParam : ℕ} {mode : StopMode} (b : Bool)
    (hpicks : picks s (.trayMsg l wParam) = (s.m_bFlashing && s.m_eTFSMode = mode))
    (hs : (if s.m_bFlashing then
        if s.m_eTFSMode = mode then ({ s with m_bWaitForDblClk := b } : Tray H).pick
        else some { s with m_bWaitForDblClk := b }
      else some ({ s with m_bWaitForDblClk := b }.fireOnTrayEvent wParam (.msg l))) = some s') :
    Effect s (.trayMsg l wParam) s' := by
  split_ifs at hs with hflag hmode
  · exact pick_effect hnd hf (by simp [hpicks, hflag, hmode]) b hs
  · have hp : picks s (.trayMsg l wParam) = false := by simp [hpicks, hmode]
    cases hs
    exact effect_stay hf hp (by simp [stopped, hp]) b
  · have hp : picks s (.trayMsg l wParam) = false := by simp [hpicks, hflag]
    cases hs
    exact effect_fire hnd hf hp (by simp [stopped, hp]) wParam l b

theorem trayWndProc_effect (hnd : s.m_vecTrayEventHandler.Nodup) (hf : Flashing s) {l : TrayMsg}
    {wParam : ℕ} (hs : s.trayWndProc wParam l = some s') : Effect s (.trayMsg l wParam) s' := by
  cases l with
  | lButtonDown => exact click_effect hnd hf true rfl hs
  | lButtonDblClk => exact click_effect hnd hf false rfl hs
  | mouseMove =>
    cases hs
    exact effect_stay hf rfl rfl s.m_bWaitForDblClk
  | timer =>
    simp only [Tray.trayWndProc] at hs
    split_ifs at hs
    · cases hs
      exact effect_fire hnd hf rfl rfl 0 .lButtonDownLate false
    · cases hs
      exact effect_stay hf rfl rfl s.m_bWaitForDblClk
  | lButtonDownLate | rButtonDown | rButtonUp | mouseMovePost =>
    cases hs
    exact effect_fire hnd hf rfl rfl wParam _ s.m_bWaitForDblClk

theorem trayStep_effect (hnd : s.m_vecTrayEventHandler.Nodup) (hf : Flashing s) {a : TrayAct}
    (hs : trayStep s a = some s') : Effect s a s' := by
  cases a with
  | flash hiconNew dwParam =>
    cases hs
    exact flash_effect hf hiconNew dwParam
  | stopFlash nIndex => exact stopFlash_effect hnd hf hs
  | stopAllFlash =>
    cases hs
    exact stopAllFlash_effect hnd hf
  | fakePickMsg =>
    rw [trayStep, Tray.fakePickMsg] at hs
    split at hs
    next hflag => exact pick_effect hnd hf hflag s.m_bWaitForDblClk hs
    next hflag =>
      cases hs
      have hp : picks s .fakePickMsg = false := by simpa [picks] using hflag
      exact effect_fire hnd hf hp (by simp [stopped, hp]) 0 .lButtonDown s.m_bWaitForDblClk
  | trayMsg l wParam => exact trayWndProc_effect hnd hf hs

end Steps

/-! ### Runs -/

section Runs

/-- A tray, with the flashes that were stopped one by one and how often the stack became empty. -/
structure Watched (H : Type) where
  tray : Tray H
  stops : List ℕ := []
  emptied : ℕ := 0

def watch (s : Watched H) (a : TrayAct) : Option (Watched H) :=
  (trayStep s.tray a).map fun t =>
    { tray := t, stops := s.stops ++ (stopped s.tray a).toList,
      emptied := s.emptied + if s.tray.m_stackFlash ≠ [] ∧ t.m_stackFlash = [] then 1 else 0 }

/-- With a handler to hear it: a flash is stopped before one handler only, and the last flash is not
    picked. -/
def HeardOnce (s : Watched H) (a : TrayAct) : Prop :=
  s.tray.m_vecTrayEventHandler ≠ [] →
    (stopped s.tray a ≠ none → s.tray.m_vecTrayEventHandler.length = 1) ∧
    (picks s.tray a = true → s.tray.m_stackFlash.length ≠ 1)

instance (s : Watched H) (a : TrayAct) : Decidable (HeardOnce s a) :=
  inferInstanceAs (Decidable (_ → _ ∧ _))

theorem watch_inv {s s' : Watched H} {a : TrayAct} (hs : watch s a = some s') :
    trayStep s.tray a = some s'.tray ∧ s'.stops = s.stops ++ (stopped s.tray a).toList ∧
    s'.emptied =
      s.emptied + if s.tray.m_stackFlash ≠ [] ∧ s'.tray.m_stackFlash = [] then 1 else 0 := by
  obtain ⟨t, ht, rfl⟩ := Option.map_eq_some_iff.mp hs
  exact ⟨ht, rfl, rfl⟩

theorem count_toList (o : Option ℕ) (w : ℕ) : o.toList.count w = if o = some w then 1 else 0 := by
  cases o <;> simp [List.count_singleton]

/-- A flash can be picked only when there is one. -/
theorem ne_nil_of_picks {s : Tray H} (hf : Flashing s) {a : TrayAct} (hp : picks s a = true) :
    s.m_stackFlash ≠ [] := by
  refine hf.mp ?_
  rw [picks.eq_def] at hp
  split at hp <;> simp_all

variable [DecidableEq H]

/-- Everyone has heard of every stop, and of every empty stack, exactly once. -/
structure Watched.Exact (s : Watched H) : Prop where
  flashing : Flashing s.tray
  ends : ∀ h ∈ s.tray.m_vecTrayEventHandler, ∀ w, ends s.tray.log h w = s.stops.count w
  alls : ∀ h ∈ s.tray.m_vecTrayEventHandler, alls s.tray.log h = s.emptied

/-- What is known while nothing has gone wrong. -/
structure Watched.Sound (s : Watched H) : Prop extends s.Exact where
  nodup : s.tray.m_vecTrayEventHandler.Nodup

variable {s s' : Watched H} {a : TrayAct}

theorem watch_sound (h : s.Sound) (hok : HeardOnce s a) (hs : watch s a = some s') : s'.Sound := by
  obtain ⟨ht, hstops, hemptied⟩ := watch_inv hs
  have heff := trayStep_effect h.nodup h.flashing ht
  have hnd : s'.tray.m_vecTrayEventHandler.Nodup := by
    rw [heff.handlers]
    exact h.nodup
  refine ⟨⟨heff.flashing, fun g hg w => ?_, fun g hg => ?_⟩, hnd⟩
  · rw [heff.handlers] at hg
    obtain ⟨hone, -⟩ := hok (List.ne_nil_of_mem hg)
    rw [heff.ends g hg w, h.ends g hg w, hstops, List.count_append, count_toList]
    by_cases hw : stopped s.tray a = some w
    · rw [if_pos hw, if_pos hw, hone (by simp [hw])]
    · rw [if_neg hw, if_neg hw]
  · rw [heff.handlers] at hg
    obtain ⟨-, hmore⟩ := hok (List.ne_nil_of_mem hg)
    rw [heff.alls g hg, h.alls g hg, hemptied]
    by_cases hempty : s.tray.m_stackFlash ≠ [] ∧ s'.tray.m_stackFlash = []
    · have hp : picks s.tray a ≠ true := fun hp => hmore hp ((heff.last hp).mp hempty.2)
      rw [if_pos hempty, if_pos hempty, if_neg hp]
    · rw [if_neg hempty, if_neg hempty]

theorem watch_not_exact (h : s.Sound) (hbad : ¬ HeardOnce s a) (hs : watch s a = some s') :
    ¬ s'.Exact := by
  intro h'
  obtain ⟨ht, hstops, hemptied⟩ := watch_inv hs
  have heff := trayStep_effect h.nodup h.flashing ht
  obtain ⟨hne, hbad⟩ := Classical.not_imp.mp hbad
  obtain ⟨g, hg⟩ := List.exists_mem_of_ne_nil _ hne
  have hg' : g ∈ s'.tray.m_vecTrayEventHandler := heff.handlers ▸ hg
  rcases not_and_or.mp hbad with hbad | hbad
  · -- the end of one flash, heard as often as there are handlers
    obtain ⟨hstop, hlen⟩ := Classical.not_imp.mp hbad
    obtain ⟨w, hw⟩ := Option.ne_none_iff_exists'.mp hstop
    have hends := h'.ends g hg' w
    rw [heff.ends g hg w, h.ends g hg w, hstops, List.count_append, count_toList, if_pos hw,
      if_pos hw] at hends
    omega
  · obtain ⟨hp, hlen⟩ := Classical.not_imp.mp hbad
    have hempty : s.tray.m_stackFlash ≠ [] ∧ s'.tray.m_stackFlash = [] :=
      ⟨ne_nil_of_picks h.flashing hp, (heff.last hp).mpr (not_not.mp hlen)⟩
    have halls := h'.alls g hg'
    rw [heff.alls g hg, h.alls g hg, hemptied, if_pos hempty, if_pos hempty, if_pos hp] at halls
    omega

/-- A tray before its first flash. -/
def Watched.start (handlers : List H) (m_eTFSMode : StopMode) (hIcon : Option ℕ) (cbSize : Bool) :
    Watched H where
  tray := { m_vecTrayEventHandler := handlers, m_eTFSMode, hIcon, cbSize }

theorem start_sound {handlers : List H} (hnd : handlers.Nodup) (m_eTFSMode : StopMode)
    (hIcon : Option ℕ) (cbSize : Bool) :
    (Watched.start handlers m_eTFSMode hIcon cbSize).Sound where
  flashing := by simp [Watched.start, Flashing]
  ends _ _ _ := rfl
  alls _ _ := rfl
  nodup := hnd

/-- `m_bFlashing` is right in every run. -/
theorem flashing_always {handlers : List H} (hnd : handlers.Nodup) (m_eTFSMode : StopMode)
    (hIcon : Option ℕ) (cbSize : Bool) (acts : List TrayAct) :
    ∀ s ∈ states watch (Watched.start handlers m_eTFSMode hIcon cbSize) acts, Flashing s.tray := by
  have hstart := start_sound hnd m_eTFSMode hIcon cbSize
  have hstep : ∀ (s : Watched H) (a : TrayAct) (s' : Watched H),
      Flashing s.tray ∧ s.tray.m_vecTrayEventHandler.Nodup → watch s a = some s' →
      Flashing s'.tray ∧ s'.tray.m_vecTrayEventHandler.Nodup := by
    rintro s a s' ⟨hf, hnd⟩ hs
    have heff := trayStep_effect hnd hf (watch_inv hs).1
    exact ⟨heff.flashing, heff.handlers.symm ▸ hnd⟩
  exact fun s hs => (invariant_always hstep acts _ ⟨hstart.flashing, hstart.nodup⟩ s hs).1

/-- The notifications are exact in the runs where no flash is stopped before two handlers and the
    last flash is never picked. -/
theorem notifications_exact_iff (handlers : List H) (hnd : handlers.Nodup) (m_eTFSMode : StopMode)
    (hIcon : Option ℕ) (cbSize : Bool) (acts : List TrayAct) :
    (∀ s ∈ states watch (Watched.start handlers m_eTFSMode hIcon cbSize) acts, s.Exact) ↔
      Along watch HeardOnce (Watched.start handlers m_eTFSMode hIcon cbSize) acts :=
  invariant_iff (fun _ h => h.toExact) (fun _ _ _ => watch_sound) (fun _ _ _ => watch_not_exact)
    acts _ (start_sound hnd m_eTFSMode hIcon cbSize)

/-- Two flashes, one picked and one stopped by its index. -/
def twoFlashes : List TrayAct :=
  [.flash (.handle 1) 5, .flash (.handle 2) 6, .fakePickMsg, .stopFlash 0]

theorem notifications_exact_twoFlashes :
    ([()] : List Unit).Nodup ∧
      ∀ s ∈ states watch (Watched.start [()] .doubleClick none true) twoFlashes, s.Exact := by
  have hok : Along watch HeardOnce (Watched.start [()] .doubleClick none true) twoFlashes := by
    decide
  exact ⟨by decide, (notifications_exact_iff [()] (by decide) _ _ _ twoFlashes).mpr hok⟩

/-- One flash before one handler, picked: the handler hears twice that none is left. -/
theorem notifications_not_exact :
    ¬ ∀ s ∈ states watch (Watched.start [()] .doubleClick none true)
      [.flash (.handle 1) 5, .trayMsg .lButtonDblClk 0], s.Exact := by
  intro h
  have hall : ∀ s ∈ states watch (Watched.start [()] .doubleClick none true)
      [.flash (.handle 1) 5, .trayMsg .lButtonDblClk 0],
      () ∈ s.tray.m_vecTrayEventHandler → alls s.tray.log () = s.emptied :=
    fun s hs hmem => (h s hs).alls () hmem
  revert hall
  decide

end Runs

end UrlTraveler.TrayIcon
