/-
# `CoreLink.RtThread.Device` — opening and closing a device, from `src/device.c`.

`rt_device_open` counts an open after the driver has agreed to it, but `rt_device_close` takes one off before it asks the
driver. So a driver that refuses to close leaves a device behind that is marked as open and has no opens: another
`rt_device_close` is an error, and a stand-alone device is busy from then on. A driver whose open is not implemented
(`-RT_ENOSYS`) is taken for one that has nothing to do, and yet the call returns the error.

`StepOk` keeps both away. `device_open_count` says that in runs of such calls the count is the number of opens, and agrees
with the flag, and that the first call of another kind breaks one of the promises; `device_refused_close` is a run with one.
-/
import CoreLink.Lib.Run
import Mathlib.Algebra.Order.Ring.Int
import Mathlib.Algebra.BigOperators.Group.List.Basic

namespace CoreLink.RtThread

open CoreLink.Lib

namespace Device

/-! ## The source -/

/-- `RT_EOK`, `-RT_ERROR`, `-RT_ENOSYS` and `-RT_EBUSY`. -/
def rtEok : ℤ := 0

@[inherit_doc rtEok] def rtError : ℤ := -1

@[inherit_doc rtEok] def rtEnosys : ℤ := -6

@[inherit_doc rtEok] def rtEbusy : ℤ := -7

/-- `RT_DEVICE_FLAG_STANDALONE` and `RT_DEVICE_FLAG_ACTIVATED`, bits of `flag`. -/
def flagStandalone : BitVec 16 := 0x008

@[inherit_doc flagStandalone] def flagActivated : BitVec 16 := 0x010

/-- `RT_DEVICE_OFLAG_CLOSE`, `RT_DEVICE_OFLAG_OPEN` and `RT_DEVICE_OFLAG_MASK`, of `open_flag`. -/
def oflagClose : BitVec 16 := 0x000

@[inherit_doc oflagClose] def oflagOpen : BitVec 16 := 0x008

@[inherit_doc oflagClose] def oflagMask : BitVec 16 := 0xf0f

/-- The calls that a driver has. -/
structure DeviceOps where
  init : Bool
  opens : Bool
  closes : Bool

/-- `struct rt_device`, as far as these calls look at it. -/
structure Dev where
  ops : DeviceOps
  flag : BitVec 16
  openFlag : BitVec 16
  refCount : ℕ

/-- `rt_device_register`. -/
def rtDeviceRegister (ops : DeviceOps) (flags : BitVec 16) : Dev where
  ops := ops
  flag := flags
  openFlag := oflagClose
  refCount := 0

/-- What the driver would answer to `device_open`: the result, and what it makes of `open_flag`. -/
structure OpenReply where
  result : ℤ
  openFlag : BitVec 16

/-- A call, with what the driver would answer. -/
inductive DeviceCall where
  | opening (oflag : BitVec 16) (init : ℤ) (reply : OpenReply)
  | closing (reply : ℤ)

/-- What comes of a call: its result, and whether the `device_close` of the driver has run. -/
structure Outcome where
  result : ℤ
  driverClosed : Bool
  deriving DecidableEq

namespace Dev

/-- The device is activated, or can be: the beginning of `rt_device_open`. -/
def activated (dev : Dev) (init : ℤ) : Bool :=
  dev.flag &&& flagActivated != 0 || !dev.ops.init || init == rtEok

/-- The device after that. -/
def activate (dev : Dev) : Dev := { dev with flag := dev.flag ||| flagActivated }

/-- A stand-alone device that is open. -/
def busy (dev : Dev) : Bool := dev.flag &&& flagStandalone != 0 && dev.openFlag &&& oflagOpen != 0

/-- `open_flag` behind the driver. One that refuses leaves `RT_DEVICE_OFLAG_OPEN` as it was. -/
def driverFlag (dev : Dev) (oflag : BitVec 16) (reply : OpenReply) : BitVec 16 :=
  if dev.ops.opens then
    if reply.result = rtEok ∨ reply.result = rtEnosys then reply.openFlag
    else (reply.openFlag &&& ~~~oflagOpen) ||| (dev.openFlag &&& oflagOpen)
  else oflag &&& oflagMask

/-- `rt_device_open` after the driver. There is no result where the assertion about the count fails. -/
def opened (dev : Dev) (result : ℤ) : Option (Dev × ℤ) :=
  if result = rtEok ∨ result = rtEnosys then
    if (dev.refCount + 1) % 2 ^ 8 ≠ 0 then
      some ({ dev with openFlag := dev.openFlag ||| oflagOpen, refCount := (dev.refCount + 1) % 2 ^ 8 }, result)
    else none
  else some (dev, result)

/-- `rt_device_open`. -/
def rtDeviceOpen (dev : Dev) (oflag : BitVec 16) (init : ℤ) (reply : OpenReply) : Option (Dev × ℤ) :=
  if dev.activated init then
    if dev.activate.busy then some (dev.activate, rtEbusy)
    else
      { dev.activate with openFlag := dev.driverFlag oflag reply }.opened (if dev.ops.opens then reply.result else rtEok)
  else some (dev, init)

/-- `rt_device_close`. -/
def rtDeviceClose (dev : Dev) (reply : ℤ) : Dev × Outcome :=
  if dev.refCount = 0 then (dev, ⟨rtError, false⟩)
  else
    let dev := { dev with refCount := dev.refCount - 1 }
    if dev.refCount ≠ 0 then (dev, ⟨rtEok, false⟩)
    else
      let result := if dev.ops.closes then reply else rtEok
      if result = rtEok ∨ result = rtEnosys then ({ dev with openFlag := oflagClose }, ⟨result, dev.ops.closes⟩)
      else (dev, ⟨result, dev.ops.closes⟩)

/-- A call. -/
def exec (dev : Dev) : DeviceCall → Option (Dev × Outcome)
  | .opening oflag init reply => (dev.rtDeviceOpen oflag init reply).map fun r => (r.1, ⟨r.2, false⟩)
  | .closing reply => some (dev.rtDeviceClose reply)

/-- The steps of a device: calls with what comes of them. -/
def Step (dev : Dev) (l : DeviceCall × Outcome) (dev' : Dev) : Prop := dev.exec l.1 = some (dev', l.2)

/-- `RT_DEVICE_OFLAG_OPEN` is set. -/
def isOpen (dev : Dev) : Bool := dev.openFlag &&& oflagOpen != 0

end Dev

/-! ## The promises -/

/-- What a call does to the number of opens: those that succeed count. -/
def opensOf : DeviceCall × Outcome → ℤ
  | (.opening _ _ _, o) => if o.result = rtEok then 1 else 0
  | (.closing _, o) => if o.result = rtEok then -1 else 0

/-- The opens that have not been closed. -/
def opens (ls : List (DeviceCall × Outcome)) : ℤ := (ls.map opensOf).sum

/-- The count is positive exactly if the device is marked as open. -/
def Dev.Consistent (dev : Dev) : Prop := 0 < dev.refCount ↔ dev.isOpen = true

/-- A close that takes the last open away. -/
def Dev.closesLast (dev : Dev) : DeviceCall → Prop
  | .opening _ _ _ => False
  | .closing _ => dev.refCount = 1

/-- **The promises of a call**: the device is consistent after it, an error leaves the count and the flag alone, and the close
of the driver, if it has one, runs for the last open. -/
structure Dev.Right (dev : Dev) (l : DeviceCall × Outcome) (dev' : Dev) : Prop where
  consistent : dev'.Consistent
  error : l.2.result ≠ rtEok → dev'.refCount = dev.refCount ∧ dev'.isOpen = dev.isOpen
  closed : l.2.driverClosed = true ↔ dev.ops.closes = true ∧ dev.closesLast l.1

/-- **Drivers that do not run into it**: an open that gets to the driver is not answered with `-RT_ENOSYS`, and the last close
is agreed to. -/
def Dev.StepOk (dev : Dev) : DeviceCall → Prop
  | .opening _ init reply =>
    dev.activated init = true → dev.activate.busy = false → dev.ops.opens = true → reply.result ≠ rtEnosys
  | .closing reply => dev.refCount = 1 → dev.ops.closes = true → reply = rtEok

/-! ## One call -/

/-- What is true of every device. -/
structure Dev.Inv (dev : Dev) : Prop where
  consistent : dev.Consistent
  count : dev.refCount < 2 ^ 8

theorem inv_register (ops : DeviceOps) (flags : BitVec 16) : (rtDeviceRegister ops flags).Inv where
  consistent := iff_of_false (Nat.lt_irrefl 0) (by simp [rtDeviceRegister, Dev.isOpen, oflagClose])
  count := Nat.two_pow_pos 8

theorem open_bit (x : BitVec 16) : (x ||| oflagOpen) &&& oflagOpen = oflagOpen := by
  unfold oflagOpen
  ext i
  simp only [BitVec.getElem_and, BitVec.getElem_or]
  cases x[i] <;> simp

/-- The bit that a driver leaves alone. -/
theorem refused_bit (x y : BitVec 16) : ((x &&& ~~~oflagOpen) ||| (y &&& oflagOpen)) &&& oflagOpen = y &&& oflagOpen := by
  ext i hi
  simp only [BitVec.getElem_and, BitVec.getElem_or, BitVec.getElem_not hi]
  cases oflagOpen[i] <;> simp

namespace Dev.Inv

variable {dev dev' : Dev}

/-- A call that changes neither the count nor the mark, and does not run the close of the driver. -/
theorem quiet (h : dev.Inv) (call : DeviceCall) (result : ℤ) {d : Dev} (hcount : d.refCount = dev.refCount)
    (hopen : d.isOpen = dev.isOpen) (hlast : ¬dev.closesLast call) : d.Inv ∧ dev.Right (call, ⟨result, false⟩) d := by
  have hconsistent : d.Consistent := by
    unfold Consistent
    rw [hcount, hopen]
    exact h.consistent
  refine ⟨⟨hconsistent, by rw [hcount]; exact h.count⟩, hconsistent, fun _ => ⟨hcount, hopen⟩, ?_⟩
  exact iff_of_false (by simp) fun hclosed => hlast hclosed.2

/-- An open that counts. -/
theorem counted (h : dev.Inv) (hcount : dev'.refCount = (dev.refCount + 1) % 2 ^ 8) (hne : (dev.refCount + 1) % 2 ^ 8 ≠ 0)
    (hopen : dev'.isOpen = true) : dev'.Inv ∧ dev'.refCount = dev.refCount + 1 := by
  have hlt := h.count
  refine ⟨⟨iff_of_true (by omega) hopen, by omega⟩, by omega⟩

/-- **An open.** -/
theorem opened (h : dev.Inv) {oflag : BitVec 16} {init result : ℤ} {reply : OpenReply}
    (hs : dev.rtDeviceOpen oflag init reply = some (dev', result)) :
    dev'.Inv ∧ (dev.StepOk (.opening oflag init reply) ↔ dev.Right (.opening oflag init reply, ⟨result, false⟩) dev') ∧
      (dev.StepOk (.opening oflag init reply) →
        (dev'.refCount : ℤ) = dev.refCount + opensOf (.opening oflag init reply, ⟨result, false⟩)) := by
  unfold rtDeviceOpen at hs
  by_cases hactivated : dev.activated init = true
  · rw [if_pos hactivated] at hs
    by_cases hbusy : dev.activate.busy = true
    · -- busy
      rw [if_pos hbusy] at hs
      obtain ⟨rfl, rfl⟩ := Prod.mk.inj (Option.some.inj hs)
      obtain ⟨hinv, hright⟩ := h.quiet (.opening oflag init reply) rtEbusy (d := dev.activate) rfl rfl id
      refine ⟨hinv, iff_of_true (fun _ hfree => ?_) hright, fun _ => ?_⟩
      · rw [hbusy] at hfree
        cases hfree
      · exact (add_zero _).symm
    · rw [if_neg hbusy] at hs
      unfold Dev.opened at hs
      by_cases hcounts : (if dev.ops.opens then reply.result else rtEok) = rtEok ∨
          (if dev.ops.opens then reply.result else rtEok) = rtEnosys
      · -- the open counts
        rw [if_pos hcounts] at hs
        split at hs
        case isFalse => cases hs
        case isTrue hne =>
          obtain ⟨rfl, rfl⟩ := Prod.mk.inj (Option.some.inj hs)
          have hopen : ({ dev.activate with
              openFlag := dev.driverFlag oflag reply ||| oflagOpen
              refCount := (dev.refCount + 1) % 2 ^ 8 } : Dev).isOpen = true := by
            unfold isOpen
            rw [open_bit]
            decide
          obtain ⟨hinv, hcount⟩ := h.counted rfl hne hopen
          by_cases hresult : (if dev.ops.opens then reply.result else rtEok) = rtEok
          · refine ⟨hinv, iff_of_true (fun _ _ hopens => ?_) ⟨hinv.consistent, fun herror => absurd hresult herror, ?_⟩, fun _ => ?_⟩
            · rw [if_pos hopens] at hresult
              rw [hresult]
              decide
            · exact iff_of_false (by simp) fun hclosed => hclosed.2
            · rw [opensOf, if_pos hresult]
              exact_mod_cast hcount
          · -- it is not implemented
            have hopens : dev.ops.opens = true := by
              by_contra hnone
              exact hresult (if_neg hnone)
            rw [if_pos hopens] at hcounts hresult ⊢
            have hbad : ¬dev.StepOk (.opening oflag init reply) := fun hok =>
              hok hactivated (Bool.eq_false_iff.mpr hbusy) hopens (hcounts.resolve_left hresult)
            refine ⟨hinv, iff_of_false hbad fun hright => ?_, fun hok => absurd hok hbad⟩
            have hsame := hcount.symm.trans (hright.error hresult).1
            omega
      · -- the driver refuses
        rw [if_neg hcounts] at hs
        obtain ⟨rfl, rfl⟩ := Prod.mk.inj (Option.some.inj hs)
        rw [not_or] at hcounts
        have hopens : dev.ops.opens = true := by
          by_contra hnone
          exact hcounts.1 (if_neg hnone)
        rw [if_pos hopens] at hcounts ⊢
        have hflag : ({ dev.activate with openFlag := dev.driverFlag oflag reply } : Dev).isOpen = dev.isOpen := by
          unfold isOpen driverFlag
          dsimp only
          rw [if_pos hopens, if_neg (not_or.mpr hcounts), refused_bit]
        obtain ⟨hinv, hright⟩ := h.quiet (.opening oflag init reply) reply.result
          (d := { dev.activate with openFlag := dev.driverFlag oflag reply }) rfl hflag id
        refine ⟨hinv, iff_of_true (fun _ _ _ => hcounts.2) hright, fun _ => ?_⟩
        rw [opensOf, if_neg hcounts.1, add_zero]
        rfl
  · -- the driver does not come up
    rw [if_neg hactivated] at hs
    obtain ⟨rfl, rfl⟩ := Prod.mk.inj (Option.some.inj hs)
    obtain ⟨hinv, hright⟩ := h.quiet (.opening oflag init reply) init (d := dev) rfl rfl id
    refine ⟨hinv, iff_of_true (fun h => absurd h hactivated) hright, fun _ => ?_⟩
    have hinit : init ≠ rtEok := by
      rintro rfl
      exact hactivated (by simp [activated])
    rw [opensOf, if_neg hinit, add_zero]

/-- **A close.** -/
theorem closed (h : dev.Inv) (reply : ℤ) :
    (dev.StepOk (.closing reply) ↔ dev.Right (.closing reply, (dev.rtDeviceClose reply).2) (dev.rtDeviceClose reply).1) ∧
      (dev.StepOk (.closing reply) → (dev.rtDeviceClose reply).1.refCount < 2 ^ 8 ∧
        ((dev.rtDeviceClose reply).1.refCount : ℤ) = dev.refCount + opensOf (.closing reply, (dev.rtDeviceClose reply).2)) := by
  have hlt := h.count
  unfold rtDeviceClose
  by_cases hzero : dev.refCount = 0
  · -- nothing is open
    rw [if_pos hzero]
    obtain ⟨-, hright⟩ := h.quiet (.closing reply) rtError (d := dev) rfl rfl (by simp [closesLast, hzero])
    exact ⟨iff_of_true (fun hone => by omega) hright, fun _ => ⟨hlt, (add_zero _).symm⟩⟩
  · rw [if_neg hzero]
    dsimp only
    by_cases hlast : dev.refCount - 1 = 0
    · rw [if_neg (not_not.mpr hlast)]
      have hone : dev.refCount = 1 := by omega
      by_cases hresult : (if dev.ops.closes then reply else rtEok) = rtEok
      · -- the driver agrees, or there is none to ask
        rw [if_pos (Or.inl hresult)]
        have hconsistent : ({ dev with openFlag := oflagClose, refCount := dev.refCount - 1 } : Dev).Consistent :=
          iff_of_false (by dsimp only; omega) (by simp [isOpen, oflagClose])
        refine ⟨iff_of_true (fun _ hcloses => ?_) ⟨hconsistent, fun herror => absurd hresult herror, ?_⟩, fun _ => ⟨?_, ?_⟩⟩
        · rwa [if_pos hcloses] at hresult
        · exact ⟨fun hcloses => ⟨hcloses, hone⟩, fun hclosed => hclosed.1⟩
        · dsimp only
          omega
        · rw [opensOf, if_pos hresult]
          dsimp only
          omega
      · -- it refuses, with one open less than before
        have hcloses : dev.ops.closes = true := by
          by_contra hnone
          exact hresult (if_neg hnone)
        rw [if_pos hcloses] at hresult ⊢
        have hbad : ¬dev.StepOk (.closing reply) := fun hok => hresult (hok hone hcloses)
        refine ⟨iff_of_false hbad fun hright => ?_, fun hok => absurd hok hbad⟩
        have hsame := hright.error (by split <;> exact hresult)
        have hcount : dev.refCount - 1 = dev.refCount := by
          split at hsame <;> exact hsame.1
        omega
    · -- there are other opens
      rw [if_pos hlast]
      have hconsistent : ({ dev with refCount := dev.refCount - 1 } : Dev).Consistent :=
        iff_of_true (Nat.pos_of_ne_zero hlast) (h.consistent.mp (Nat.pos_of_ne_zero hzero))
      refine ⟨iff_of_true (fun hone => ?_) ⟨hconsistent, fun herror => absurd rfl herror, ?_⟩, fun _ => ⟨?_, ?_⟩⟩
      · omega
      · exact iff_of_false (by simp) fun hclosed => hlast (by rw [hclosed.2])
      · dsimp only
        omega
      · rw [opensOf, if_pos rfl]
        dsimp only
        omega

/-- A call that is right keeps what is true of every device. -/
theorem step (h : dev.Inv) {l : DeviceCall × Outcome} (hs : dev.Step l dev') :
    (dev.StepOk l.1 ↔ dev.Right l dev') ∧
      (dev.StepOk l.1 → dev'.Inv ∧ (dev'.refCount : ℤ) = dev.refCount + opensOf l) := by
  obtain ⟨call, outcome⟩ := l
  cases call with
  | opening oflag init reply =>
    obtain ⟨⟨d, result⟩, hopen, heq⟩ := Option.map_eq_some_iff.mp hs
    obtain ⟨rfl, rfl⟩ := Prod.mk.inj heq
    obtain ⟨hinv, hiff, hcount⟩ := h.opened hopen
    exact ⟨hiff, fun hok => ⟨hinv, hcount hok⟩⟩
  | closing reply =>
    obtain ⟨rfl, rfl⟩ := Prod.mk.inj (Option.some.inj hs)
    obtain ⟨hiff, hcount⟩ := h.closed reply
    exact ⟨hiff, fun hok => ⟨⟨(hiff.mp hok).consistent, (hcount hok).1⟩, (hcount hok).2⟩⟩

end Dev.Inv

/-! ## Runs -/

variable {ops : DeviceOps} {flags : BitVec 16}

theorem opens_concat (ls : List (DeviceCall × Outcome)) (l : DeviceCall × Outcome) : opens (ls ++ [l]) = opens ls + opensOf l := by
  simp [opens]

/-- In runs of such calls the count is the number of opens. -/
theorem run_inv {ls : List (DeviceCall × Outcome)} {dev : Dev}
    (hrun : Run (Guarded (fun dev l => dev.StepOk l.1) Dev.Step) (rtDeviceRegister ops flags) ls dev) :
    dev.Inv ∧ (dev.refCount : ℤ) = opens ls ∧
      Run (fun dev l dev' => dev.Step l dev' ∧ dev.Right l dev') (rtDeviceRegister ops flags) ls dev := by
  induction hrun with
  | nil => exact ⟨inv_register ops flags, rfl, .nil⟩
  | @snoc ls dev dev' l hrun hs ih =>
    obtain ⟨hinv, hcount, hright⟩ := ih
    obtain ⟨hok, hstep⟩ := hs
    obtain ⟨hiff, hnext⟩ := hinv.step hstep
    obtain ⟨hinv', hcount'⟩ := hnext hok
    refine ⟨hinv', ?_, .snoc hright ⟨hstep, hiff.mp hok⟩⟩
    rw [hcount', hcount, opens_concat]

/-- **The count of the opens.** In runs in which no open gets `-RT_ENOSYS` from the driver and the last close is agreed to, the
count is the number of opens, it is positive exactly if the device is marked as open, and every call is right. After such a run
a call is right exactly if it is of this kind. -/
theorem device_open_count {ls : List (DeviceCall × Outcome)} {dev : Dev}
    (hrun : Run (Guarded (fun dev l => dev.StepOk l.1) Dev.Step) (rtDeviceRegister ops flags) ls dev) :
    (dev.refCount : ℤ) = opens ls ∧ dev.Consistent ∧
      Run (fun dev l dev' => dev.Step l dev' ∧ dev.Right l dev') (rtDeviceRegister ops flags) ls dev ∧
      ∀ l dev', dev.Step l dev' → (dev.StepOk l.1 ↔ dev.Right l dev') := by
  obtain ⟨hinv, hcount, hright⟩ := run_inv hrun
  exact ⟨hcount, hinv.consistent, hright, fun l dev' hs => (hinv.step hs).1⟩

/-- A driver with all three calls. -/
def allOps : DeviceOps := ⟨true, true, true⟩

/-- An open that the driver agrees to. -/
def agreed : DeviceCall := .opening 0 rtEok ⟨rtEok, 0⟩

instance (dev : Dev) : DecidablePred dev.StepOk
  | .opening _ init reply =>
    inferInstanceAs (Decidable (dev.activated init = true → dev.activate.busy = false → dev.ops.opens = true →
      reply.result ≠ rtEnosys))
  | .closing reply => inferInstanceAs (Decidable (dev.refCount = 1 → dev.ops.closes = true → reply = rtEok))

/-- A call, without what comes of it. -/
def Dev.next (dev : Dev) (call : DeviceCall) : Option Dev := (dev.exec call).map Prod.fst

theorem Dev.step_of_next {dev dev' : Dev} {call : DeviceCall} (h : dev.next call = some dev') :
    ∃ l : DeviceCall × Outcome, l.1 = call ∧ dev.Step l dev' := by
  obtain ⟨⟨d, outcome⟩, hexec, rfl⟩ := Option.map_eq_some_iff.mp h
  exact ⟨(call, outcome), rfl, hexec⟩

/-- Two opens, one that the driver refuses, and two closes. -/
theorem device_open_count_shared : ∃ (ls : List (DeviceCall × Outcome)) (dev : Dev),
    ls.map Prod.fst = [agreed, agreed, .opening 0 rtEok ⟨rtError, 0⟩, .closing rtEok, .closing rtEok] ∧
      (dev.refCount : ℤ) = opens ls ∧ dev.Consistent := by
  have hexec : (([agreed, agreed, .opening 0 rtEok ⟨rtError, 0⟩, .closing rtEok, .closing rtEok].foldlM
      (fun (dev : Dev) call => if dev.StepOk call then dev.next call else none) (rtDeviceRegister allOps 0)).map
        fun dev => dev.refCount) = some 0 := by decide
  obtain ⟨dev, hdev, -⟩ := Option.map_eq_some_iff.mp hexec
  have hstep : ∀ (dev : Dev) (call : DeviceCall) (dev' : Dev), (if dev.StepOk call then dev.next call else none) = some dev' →
      ∃ l : DeviceCall × Outcome, l.1 = call ∧ Guarded (fun dev l => dev.StepOk l.1) Dev.Step dev l dev' := by
    intro dev call dev' hs
    by_cases hok : dev.StepOk call
    · rw [if_pos hok] at hs
      obtain ⟨l, rfl, hstep⟩ := Dev.step_of_next hs
      exact ⟨l, rfl, hok, hstep⟩
    · rw [if_neg hok] at hs
      cases hs
  obtain ⟨ls, hls, hrun⟩ := Run.exists_of_foldlM Prod.fst hstep hdev
  obtain ⟨hcount, hconsistent, -, -⟩ := device_open_count hrun
  exact ⟨ls, dev, hls, hcount, hconsistent⟩

/-- **A device that nobody has open, and that is marked as open.** The driver refuses the close of the only open. -/
theorem device_refused_close : ∃ (ls : List (DeviceCall × Outcome)) (dev : Dev),
    Run Dev.Step (rtDeviceRegister allOps 0) ls dev ∧ ls.map Prod.fst = [agreed, .closing rtError] ∧ ¬dev.Consistent := by
  have hexec : (([agreed, .closing rtError].foldlM Dev.next (rtDeviceRegister allOps 0)).map
      fun dev => (dev.refCount, dev.isOpen)) = some (0, true) := by decide
  obtain ⟨dev, hdev, hobs⟩ := Option.map_eq_some_iff.mp hexec
  obtain ⟨hcount, hopen⟩ := Prod.mk.inj hobs
  have hstep : ∀ (dev : Dev) (call : DeviceCall) (dev' : Dev), dev.next call = some dev' →
      ∃ l : DeviceCall × Outcome, l.1 = call ∧ dev.Step l dev' := fun _ _ _ hs => Dev.step_of_next hs
  obtain ⟨ls, hls, hrun⟩ := Run.exists_of_foldlM Prod.fst hstep hdev
  refine ⟨ls, dev, hrun, hls, fun h => ?_⟩
  have hpos := h.mpr hopen
  omega

end Device

end CoreLink.RtThread
