import DlxOs.Kernel.Locks
import DlxOs.Kernel.ProcessTable

/-!
# The hand-off of a lock by a signal

A signal hands the lock of the condition variable to the process that waited
longest, in the same step. This process keeps the lock until it gives it up,
and so it owns the lock when its wait returns. Without anybody waiting, a
signal changes nothing.
-/

namespace DlxOs.Kernel

open Queue Monitors Transition

variable {m m' : Machine} {K : KState} {p q w : PcbPtr} {k : LockPtr} {c : CondPtr} {e : KEvent}
  {arrivals : List PcbPtr} {handle : Int} {r : Ret}

/-- The kernel with the processes inside a wait on `c`, in the order in which they called it. -/
def condSystem (c : CondPtr) : System (Machine × List PcbPtr) KEvent :=
  kernelSystem.observe [] fun arrivals m e _ => arrivalsAfter c arrivals (m.meaning e)

/-- Process `p` releases lock `k`, waits or signals on a condition bound to it, or exits. -/
def KEvent.GivesUp (p : PcbPtr) (k : LockPtr) (m : Machine) (e : KEvent) : Prop :=
  (m.meaning e).GivesUp m.kernel.monitor.bound p k

/-- The first of the arrivals that still sleeps. -/
def Machine.longestWaiting (m : Machine) (arrivals : List PcbPtr) : Option PcbPtr :=
  arrivals.find? fun p => decide (m.kernel.statusOf p = processStatusWaiting)

/-- Process `w`, inside a wait on `c`, owns lock `k` until it gives it up, and its wait succeeds. -/
structure Machine.HandedTo (m : Machine) (w : PcbPtr) (c : CondPtr) (k : LockPtr) : Prop where
  inside : ∃ handle i, m.pending w = some (.condWait handle, i) ∧ index maxConds handle = some c
  owns : ∀ es m', (kernelSystem.restrict fun x e => ¬ e.GivesUp w k x).Run m es m' →
    (m'.kernel.locks k).pid = w.val
  returns : ∀ es m', (kernelSystem.restrict fun x e => ¬ e.GivesUp w k x).Run m es m' →
    ∀ c' v m'', m'.Step (.resume w c' v) m'' →
      v = syncSuccess ∧ (m''.kernel.locks k).pid = w.val

/-- What `CondSignal` on `c` does with lock `k` to which `c` is bound. -/
structure Machine.SignalsBy (m : Machine) (arrivals : List PcbPtr) (c : CondPtr) (k : LockPtr) :
    Prop where
  hands : ∀ p handle r m', (m.kernel.locks k).pid = p.val → index maxConds handle = some c →
    m.kernel.list (.waiting (.cond c)) ≠ [] → m.Step (.call p (.condSignal handle) r) m' →
      ∃ w, m.longestWaiting arrivals = some w ∧ m'.HandedTo w c k
  back : ∀ p handle m', index maxConds handle = some c →
    m.Step (.call p (.condSignal handle) (.returned syncSuccess)) m' ∨
      m.Step (.resume p (.condSignal handle) syncSuccess) m' → (m'.kernel.locks k).pid = p.val
  alone : ∀ p handle r m', index maxConds handle = some c →
    m.kernel.list (.waiting (.cond c)) = [] → m.Step (.call p (.condSignal handle) r) m' →
      ∃ texts level, m' = m.setKernel ((m.kernel.say texts).setIntrs level)

namespace Machine

/-- What the return from a call after a sleep is. -/
theorem resume_cases {d : Syscall} {v : Int} (hs : m.Step (.resume p d v) m') :
    m.kernel.currentPCB = some p ∧ v = syncSuccess ∧ m'.kernel.monitor = m.kernel.monitor ∧
      ∃ i, m.pending p = some (d, i) := by
  cases hs with
  | @resume _ _ i _ _ current pending h =>
      obtain ⟨rfl, rfl⟩ := Prod.mk.inj (Except.ok.inj (show
        Except.ok (syncSuccess, m.kernel.setIntrs i) = _ from h))
      exact ⟨current, rfl, KState.setIntrs_monitor .., i, pending⟩

namespace Inv

/-- A lock stays with its owner until the owner gives it up. -/
theorem owner_kept (h : m.Inv) (ho : m.kernel.monitor.owner k = some w) {es : List KEvent}
    (run : (kernelSystem.restrict fun x e => ¬ e.GivesUp w k x).Run m es m') :
    m'.Inv ∧ m'.kernel.monitor.owner k = some w := by
  refine run.invariant (P := fun x => x.Inv ∧ x.kernel.monitor.owner k = some w)
    (E := fun _ => True) (fun x e x' hx _ hs => ?_) ⟨h, ho⟩ fun _ _ => trivial
  obtain ⟨hi, hview⟩ := hx.1.step hs.1
  exact ⟨hi, Monitors.owner_kept hx.1.sound hview hx.2 hs.2⟩

/-- Who owns the lock of the condition variable it waits for has been handed it. -/
theorem handedTo (h : m.Inv) (hp : m.view.pending w = some (.wait c))
    (ho : m.kernel.monitor.owner k = some w) : m.HandedTo w c k := by
  refine ⟨?_, fun es m' run => KState.owner_pid (h.owner_kept ho run).2,
    fun es m' run c' v m'' hs => ?_⟩
  · cases hw : m.pending w with
    | none => simp [Machine.view, hw] at hp
    | some e =>
        obtain ⟨d, i⟩ := e
        have hd : d.meaning = some (.wait c) := by simpa [Machine.view, hw] using hp
        cases d with
        | condWait handle =>
            exact ⟨handle, i, rfl, by simpa [Syscall.meaning] using hd⟩
        | semWait s => simp [Syscall.meaning] at hd
        | semSignal s => simp [Syscall.meaning] at hd
        | lockAcquire k => simp [Syscall.meaning] at hd
        | lockRelease k => simp [Syscall.meaning] at hd
        | lockTransfer k q => simp [Syscall.meaning] at hd
        | condSignal c => simp [Syscall.meaning] at hd
        | _ => cases hd
  · obtain ⟨-, hv, hm, -⟩ := resume_cases hs
    refine ⟨hv, KState.owner_pid ?_⟩
    rw [hm]
    exact (h.owner_kept ho run).2

/-- The queue of a condition variable starts with the arrival that waited longest. -/
theorem longestWaiting_eq (h : m.Inv) (f : ArrivalsFit c arrivals m.view) :
    m.longestWaiting arrivals = (m.kernel.monitor.waiting (.cond c)).head? := by
  have hw : m.kernel.monitor.waiting (.cond c) =
      arrivals.filter fun p => decide (m.kernel.statusOf p = processStatusWaiting) := by
    refine f.asleep h.sound fun p hp => ?_
    rw [decide_eq_true_iff, h.waiting_iff]
    refine ⟨fun hw ha => ?_, fun ha => h.queued _ p (h.sound.mem_cond (f.inside p hp) ha)⟩
    have hpend : m.pending p ≠ none := fun e => by
      have := f.inside p hp
      simp [Machine.view, e] at this
    obtain ⟨e, he⟩ := Option.ne_none_iff_exists'.mp hpend
    obtain ⟨-, hr | ⟨v, hv⟩⟩ := h.inside p e he
    · exact h.table.run_wait hr hw
    · exact ha v hv
  rw [hw, List.head?_filter]
  rfl

/-- A call of `CondSignal` on a condition variable in use. -/
theorem signal_performed (h : m.Inv) (hu : (m.kernel.conds c).inuse = true)
    (hc : index maxConds handle = some c) (hs : m.Step (.call p (.condSignal handle) r) m') :
    ∃ K, m' = m.after p (.condSignal handle) r K ∧ m.Active p ∧
      m.kernel.monitor.call p (.signal c) = (r.outcome, K.monitor) := by
  cases hs with
  | @call _ _ level _ K active legal hs =>
      obtain ⟨hsv, -⟩ := h.call_served active legal hs
      have hmean : (Syscall.condSignal handle).meaning = some (.signal c) := by
        simp [Syscall.meaning, hc]
      cases hsv with
      | call hd _ hp =>
          obtain rfl := Option.some.inj (hmean.symm.trans hd)
          exact ⟨K, rfl, active, by simpa using hp.call⟩
      | refused hn => exact absurd hu (Bool.eq_false_iff.mp (hn _ hmean))

/-- A signal by the owner makes the first waiting process the owner. -/
theorem signal_wakes (h : m.Inv) (hu : (m.kernel.conds c).inuse = true)
    (hc : index maxConds handle = some c)
    (ho : m.kernel.monitor.owner (m.kernel.monitor.bound c) = some p)
    (hw : m.kernel.monitor.waiting (.cond c) ≠ [])
    (hs : m.Step (.call p (.condSignal handle) r) m') :
    ∃ w, (m.kernel.monitor.waiting (.cond c)).head? = some w ∧
      m'.view.pending w = some (.wait c) ∧
      m'.kernel.monitor.owner (m.kernel.monitor.bound c) = some w := by
  obtain ⟨K, rfl, active, hcall⟩ := h.signal_performed hu hc hs
  have hkernel : (m.after p (.condSignal handle) r K).kernel = K := by cases r <;> rfl
  have hcase := call_cases m.kernel.monitor p (.signal c)
  rw [hcall] at hcase
  generalize hout : r.outcome = out at hcase
  generalize hmon : K.monitor = mon at hcase
  cases hcase with
  | signalRefused _ hne => exact absurd ho hne
  | signalNone _ _ hq => exact absurd hq hw
  | @signal _ w rest _ hq =>
      have hm : w ∈ m.kernel.monitor.waiting (.cond c) := by simp [hq]
      have hne : w ≠ p := fun e => (h.serving active.1).awake _ (e ▸ hm)
      obtain ⟨d, hd, hpoint⟩ := h.sound.pending (.cond c) w hm
      obtain rfl : d = .wait c := by
        cases d <;> cases hpoint
        rfl
      refine ⟨w, by rw [hq]; rfl, ?_, ?_⟩
      · cases r with
        | returned v => cases hout
        | asleep i =>
            simpa [Machine.view, Machine.after, Machine.setPending, Machine.setKernel, hne] using hd
      · rw [hkernel, hmon]
        simp

/-- A signal that returns at once leaves the lock with its caller. -/
theorem signal_owns (h : m.Inv) (hu : (m.kernel.conds c).inuse = true)
    (hc : index maxConds handle = some c)
    (hs : m.Step (.call p (.condSignal handle) (.returned syncSuccess)) m') :
    m'.kernel.monitor.owner (m.kernel.monitor.bound c) = some p := by
  obtain ⟨K, rfl, -, hcall⟩ := h.signal_performed hu hc hs
  have hcase := call_cases m.kernel.monitor p (.signal c)
  rw [hcall] at hcase
  change K.monitor.owner _ = _
  generalize hout : (Ret.returned syncSuccess).outcome = out at hcase
  generalize K.monitor = mon at hcase ⊢
  cases hcase with
  | signalRefused _ hne => simp [Ret.outcome] at hout
  | signalNone _ ho _ => exact ho
  | signal _ _ _ => simp [Ret.outcome] at hout

/-- A signaller that returns from its sleep owns the lock again. -/
theorem signal_returns (h : m.Inv) (hc : index maxConds handle = some c)
    (hs : m.Step (.resume p (.condSignal handle) syncSuccess) m') :
    m'.kernel.monitor.owner (m.kernel.monitor.bound c) = some p := by
  obtain ⟨hcur, -, hm, i, hpend⟩ := resume_cases hs
  rw [hm]
  refine h.sound.granted p (.signal c) _ ?_ (h.serving hcur).awake rfl
  simp [Machine.view, hpend, Syscall.meaning, hc]

/-- A signal without anybody waiting at most prints a message. -/
theorem signal_alone (h : m.Inv) (hu : (m.kernel.conds c).inuse = true)
    (hc : index maxConds handle = some c) (hw : m.kernel.list (.waiting (.cond c)) = [])
    (hs : m.Step (.call p (.condSignal handle) r) m') :
    ∃ texts level, m' = m.setKernel ((m.kernel.say texts).setIntrs level) := by
  cases hs with
  | @call _ _ level _ K active legal hs =>
      have hserve := (h.serving active.1).setIntrs level
      have hu' : (m.kernel.setIntrs level).inuse (.cond c) = true := hu
      have hrun : (condSignal c).run (m.kernel.setIntrs level) = .ok (r, K) := by
        rw [← hs, Syscall.run, condHandleSignal, handled_run hc]
        exact congrFun (if_pos hu').symm _
      by_cases ho : (m.kernel.setIntrs level).monitor.owner
          ((m.kernel.setIntrs level).monitor.bound c) = some p
      · have hw' : (m.kernel.setIntrs level).monitor.waiting (.cond c) = [] := by
          rw [KState.setIntrs_monitor]
          exact hw
        rw [hserve.condSignal_none hu' ho hw'] at hrun
        obtain ⟨rfl, rfl⟩ := Prod.mk.inj (Except.ok.inj hrun)
        refine ⟨[], level, ?_⟩
        simp [Machine.after, KState.say, KState.setIntrs]
      · rw [hserve.condSignal_refused hu' ho] at hrun
        obtain ⟨rfl, rfl⟩ := Prod.mk.inj (Except.ok.inj hrun)
        exact ⟨_, level, rfl⟩

end Inv

end Machine

/-- The arrivals at a condition variable are kept along every run. -/
theorem condSystem_fits {x : Machine × List PcbPtr} (h : (condSystem c).Reachable x) :
    ArrivalsFit c x.2 x.1.view := by
  induction h with
  | init h =>
      have hw := (Machine.Init.blank h.1).2.waiting (.cond c)
      rw [h.2]
      exact ⟨by simp, hw⟩
  | step tail hs ih =>
      have hinv := reachable_inv tail.unobserved
      rw [hs.2]
      exact arrivalsAfter_fit ih hinv.sound (hinv.step hs.1).2

/-- A signal hands the lock over, and nobody else owns it before the process it wakes. -/
theorem signal_hands_off (h : (condSystem c).Reachable (m, arrivals))
    (hu : (m.kernel.conds c).inuse = true) (hk : (m.kernel.conds c).lock = k.val) :
    m.SignalsBy arrivals c k := by
  have hinv := reachable_inv h.unobserved
  have f := condSystem_fits h
  have hbound : m.kernel.monitor.bound c = k := by simp [KState.monitor, hk]
  have hkuse : m.kernel.inuse (.lock k) = true := hbound ▸ hinv.sound.bound c hu
  refine ⟨fun p handle r m' hp hc hw hs => ?_, fun p handle m' hc hs => ?_,
    fun p handle r m' hc hw hs => hinv.signal_alone hu hc hw hs⟩
  · have ho : m.kernel.monitor.owner k = some p := (Serving.owner_eq_some hkuse p).mpr hp
    obtain ⟨w, hfirst, hpend, ho'⟩ := hinv.signal_wakes hu hc (hbound.symm ▸ ho) hw hs
    rw [hbound] at ho'
    exact ⟨w, (hinv.longestWaiting_eq f).trans hfirst, (hinv.step hs).1.handedTo hpend ho'⟩
  · refine KState.owner_pid ?_
    rw [← hbound]
    exact hs.elim (hinv.signal_owns hu hc) (hinv.signal_returns hc)

/-- The owner of the lock signals the one process that waits. -/
theorem signal_hands_off_waiting : ∃ (m m' : Machine) (arrivals : List PcbPtr) (p q w : PcbPtr)
    (c : CondPtr) (k : LockPtr) (i : BitVec 4), m.kernel.list (.waiting (.cond c)) = [p] ∧
      (m.kernel.locks k).pid = q.val ∧ m.Step (.call q (.condSignal c.val) (.asleep i)) m' ∧
      m.longestWaiting arrivals = some w ∧ m'.HandedTo w c k := by
  obtain ⟨m, p, q, k, c, h⟩ := exists_waiting
  obtain ⟨i, K, hs, -⟩ := h.signals
  obtain ⟨arrivals, hr⟩ :=
    h.reach.unrestricted.observed [] fun arrivals m e _ => arrivalsAfter c arrivals (m.meaning e)
  have owner := KState.owner_pid h.owner
  obtain ⟨w, longest, handed⟩ := (signal_hands_off hr (by rw [h.bound]) (by rw [h.bound])).hands q
    c.val _ _ owner (index_val c) (h.waits.trans_ne (List.cons_ne_nil p [])) hs
  exact ⟨m, _, arrivals, p, q, w, c, k, i, h.waits, owner, hs, longest, handed⟩

end DlxOs.Kernel
