import DlxOs.Kernel.ProcessSpec

/-!
# What the scheduler and the fork do to the lists

The scheduler rotates the run queue, makes its head the current process and
frees the zombies. A fork moves the first free PCB to the run queue, or to the
tail of the free ones when the program file cannot be used.
-/

namespace DlxOs.Kernel

open Queue Monitors

variable {K K' : KState} {p : PcbPtr} {q r : KQueue} {st : BitVec 32}

theorem Linked.firstPcb (h : Linked K) {rest : List PcbPtr} (hl : K.list q = p :: rest) :
    ∃ l, (firstPcb q).run K = .ok ((l, p), K) := by
  obtain ⟨S, hS⟩ := h
  obtain ⟨l, -, -, -, -, e⟩ := hS.firstPcb hl
  exact ⟨l, e⟩

/-- All zombies are freed, in their order. -/
theorem freeZombies_spec {Z : List PcbPtr} : ∀ {K : KState} {fuel : Nat}, Table K →
    K.list .zombieQueue = Z → Z.length < fuel →
    ∃ h' b', (freeZombies fuel).run K = .ok ((), K.remake h' b') ∧ Table (K.remake h' b') ∧
      (K.remake h' b').list =
        Function.update (Function.update K.list .zombieQueue []) .freepcbs
          (K.list .freepcbs ++ Z) := by
  induction Z with
  | nil =>
      intro K fuel h hZ hfuel
      obtain ⟨fuel, rfl⟩ := Nat.exists_eq_succ_of_ne_zero (by simpa using hfuel.ne')
      refine ⟨K.heap, K.pcbs, ?_, h, ?_⟩
      · have e := isEmpty_spec (q := .zombieQueue) h.linked rfl
        rw [freeZombies, run_bind_ok e]
        simp [hZ]
        rfl
      · rw [← hZ, Function.update_eq_self, hZ, List.append_nil, Function.update_eq_self]
        rfl
  | cons p rest ih =>
      intro K fuel h hZ hfuel
      obtain ⟨fuel, rfl⟩ := Nat.exists_eq_succ_of_ne_zero (show fuel ≠ 0 by omega)
      obtain ⟨l, efirst⟩ := h.linked.firstPcb hZ
      obtain ⟨h₁, b₁, e₁, hT₁, hl₁, -, hgone⟩ := Table.unlink (p := p) (q := .zombieQueue) h.linked
        h.sparse rfl (by simp [hZ]) (fun q st hq p' hp' _ => h.status q st hq p' hp')
        "FATAL ERROR: could not remove zombie process from zombieQueue in ProcessSchedule!\n"
      obtain ⟨h₂, b₂, e₂, hT₂, hl₂⟩ := processFreeResources_spec hT₁ hgone
      simp only [KState.remake_remake] at e₂ hT₂ hl₂
      have hZ₂ : (K.remake h₂ b₂).list .zombieQueue = rest := by
        have := congrFun hl₂ .zombieQueue
        simpa [hl₁, hZ] using this
      obtain ⟨h₃, b₃, e₃, hT₃, hl₃⟩ := ih hT₂ hZ₂ (by simpa using hfuel)
      simp only [KState.remake_remake] at e₃ hT₃ hl₃
      refine ⟨h₃, b₃, ?_, hT₃, ?_⟩
      · have e := isEmpty_spec (q := .zombieQueue) h.linked rfl
        rw [freeZombies, run_bind_ok e]
        simp only [hZ, reduceCtorEq, decide_false, Bool.false_eq_true, if_false]
        rw [run_bind_ok efirst, run_bind_ok e₁, run_bind_ok e₂]
        exact e₃
      · have hl₂' : (K.remake h₂ b₂).list = Function.update (Function.update K.list .zombieQueue rest)
            .freepcbs (K.list .freepcbs ++ [p]) := by
          rw [hl₂, hl₁, hZ, List.erase_cons_head]
          simp
        rw [hl₃, hl₂']
        funext q
        by_cases e₁ : q = .freepcbs
        · subst e₁
          simp
        · by_cases e₂ : q = .zombieQueue
          · subst e₂
            simp
          · simp [e₁, e₂]

namespace KState

/-- `currentPCB = pcb` -/
def setCurrent (K : KState) (p : Option PcbPtr) : KState := { K with currentPCB := p }

@[simp] theorem setCurrent_inuse (K : KState) (p : Option PcbPtr) :
    (K.setCurrent p).inuse = K.inuse := inuse_congr rfl rfl rfl

@[simp] theorem setCurrent_list (K : KState) (p : Option PcbPtr) :
    (K.setCurrent p).list = K.list := list_congr rfl (K.setCurrent_inuse p)

end KState

theorem Table.setCurrent (h : Table K) (p : Option PcbPtr) : Table (K.setCurrent p) :=
  h.congr rfl rfl (K.setCurrent_inuse p)

/-- The simulation ends, after these texts on the console. -/
def Ends {α : Type} (f : KernelM α) (K : KState) (texts : List String) : Prop :=
  f.run K = .error (.exitsim (K.console ++ texts))

theorem Ends.not_wild {α : Type} {f : KernelM α} {texts : List String} (h : Ends f K texts) :
    f.run K ≠ .error .wildAccess := by
  rw [h]
  nofun

/-- The text that a failed check of a process status leaves on the console. -/
def IsAssertion (t : String) : Prop :=
  t = "ProcessSuspend: Trying to suspend a non-running process!\n\n" ∨
    t = "ProcessWakeup: Trying to wake up a non-sleeping process!\n\n"

/-- The texts that the kernel prints in operation: on a refused call, on a fork without a PCB or
without memory, and when no process can run. -/
inductive IsNotice : String → Prop
  | notOwner : IsNotice "CondWait: Proc can't wait, doesn't own lock!\n"
  | noPcb : IsNotice "FATAL error: no free processes!\n"
  | noPage : IsNotice "aFATAL: couldn't allocate memory - no free pages!\n"
  | noStack : IsNotice "bFATAL: couldn't allocate system stack - no free pages!\n"
  | exiting : IsNotice "No runnable processes - exiting!\n"
  | sleepers : IsNotice
      "FATAL ERROR: no runnable processes, but there are sleeping processes waiting!\n"
  | sleeper (i : Nat) : IsNotice s!"Sleeping process {i}: "
  | pid (p : PcbPtr) : IsNotice s!"PID = {p.val}\n"

theorem not_isAssertion {t : String} (h : t.toList[1]? ≠ some 'r') : ¬ IsAssertion t := by
  rintro (rfl | rfl) <;> simp at h

theorem IsNotice.not_isAssertion {t : String} (h : IsNotice t) : ¬ IsAssertion t := by
  cases h with
  | sleeper i =>
      change ¬ IsAssertion ("Sleeping process " ++ toString i ++ ": ")
      exact Kernel.not_isAssertion (by simp)
  | pid p =>
      change ¬ IsAssertion ("PID = " ++ toString p.val ++ "\n")
      exact Kernel.not_isAssertion (by simp)
  | _ =>
      unfold IsAssertion
      decide

/-- The texts that list these processes, the first one as number `i`. -/
def sleeperTexts : Nat → List PcbPtr → List String
  | _, [] => []
  | i, p :: rest => s!"Sleeping process {i}: " :: s!"PID = {p.val}\n" :: sleeperTexts (i + 1) rest

/-- The last texts of a simulation that ends while these processes sleep. -/
def lastTexts : List PcbPtr → List String
  | [] => ["No runnable processes - exiting!\n"]
  | p :: ps => "FATAL ERROR: no runnable processes, but there are sleeping processes waiting!\n" ::
      sleeperTexts 0 (p :: ps)

theorem sleeperTexts_notices (i : Nat) (ps : List PcbPtr) :
    ∀ t ∈ sleeperTexts i ps, IsNotice t := by
  induction ps generalizing i with
  | nil => simp [sleeperTexts]
  | cons p rest ih =>
      intro t ht
      rcases List.mem_cons.mp ht with rfl | ht
      · exact .sleeper i
      rcases List.mem_cons.mp ht with rfl | ht
      · exact .pid p
      · exact ih (i + 1) t ht

theorem lastTexts_notices (ps : List PcbPtr) : ∀ t ∈ lastTexts ps, IsNotice t := by
  cases ps with
  | nil => simpa [lastTexts] using IsNotice.exiting
  | cons p rest =>
      intro t ht
      rcases List.mem_cons.mp ht with rfl | ht
      · exact .sleepers
      · exact sleeperTexts_notices 0 _ t ht

/-- The sleeping processes are listed on the console. -/
theorem printSleepers_run (ps : List PcbPtr) (i : Nat) (K : KState) : (printSleepers i ps).run K =
    .ok ((), { K with console := K.console ++ sleeperTexts i ps }) := by
  induction ps generalizing i K with
  | nil =>
      rw [sleeperTexts, List.append_nil]
      rfl
  | cons p rest ih =>
      refine (ih (i + 1) _).trans ?_
      simp [sleeperTexts]

/-- Without a runnable process the simulation ends. -/
theorem processSchedule_halts (h : Table K) (hrun : K.list .runQueue = []) (b : Bool) :
    Ends (processSchedule b) K (lastTexts (K.list .waitQueue)) := by
  have e := isEmpty_spec (q := .runQueue) h.linked rfl
  have e' := isEmpty_spec (q := .waitQueue) h.linked rfl
  have hitems : (K.heap.items (.named .waitQueue)).filterMap K.heap.object = K.list .waitQueue := rfl
  rw [Ends, processSchedule, run_bind_ok e, hrun]
  simp only [decide_true, if_true]
  rw [run_bind_ok e']
  cases hw : K.list .waitQueue with
  | nil => rfl
  | cons p rest =>
      simp only [reduceCtorEq, decide_false, Bool.not_false, if_true]
      let fatalText := "FATAL ERROR: no runnable processes, but there are sleeping processes waiting!\n"
      let K₁ : KState := { K with console := K.console ++ [fatalText] }
      have e₁ : (printf fatalText).run K = .ok ((), K₁) := rfl
      rw [run_bind_ok e₁, get_bind_run, run_bind_ok (printSleepers_run _ 0 K₁)]
      change Except.error (Halt.exitsim (K₁.console ++ sleeperTexts 0
        ((K.heap.items (.named .waitQueue)).filterMap K.heap.object))) = _
      rw [hitems, hw]
      simp [K₁, lastTexts, fatalText]

/-- The processes of a nodup list are at most as many as there are PCBs. -/
theorem length_lt_of_nodup {ps : List PcbPtr} (h : ps.Nodup) : ps.length < processMaxProcs + 1 := by
  have := h.length_le_card
  rw [Fintype.card_fin] at this
  omega

/-- What the run queue is after scheduling. -/
def scheduled (suspendFlag : Bool) (p : PcbPtr) (rest : List PcbPtr) : List PcbPtr :=
  if suspendFlag then p :: rest else rest ++ [p]

/-- The scheduler returns when there is a runnable process. -/
theorem processSchedule_spec (h : Table K) {rest : List PcbPtr}
    (hrun : K.list .runQueue = p :: rest) (b : Bool) :
    ∃ h' b', (processSchedule b).run K =
        .ok ((), (K.remake h' b').setCurrent (scheduled b p rest).head?) ∧
      Table (K.remake h' b') ∧
      (K.remake h' b').list =
        Function.update (Function.update (Function.update K.list .runQueue (scheduled b p rest))
          .zombieQueue []) .freepcbs (K.list .freepcbs ++ K.list .zombieQueue) := by
  -- The state after the rotation, if there is one.
  obtain ⟨h₁, hT₁, hl₁, hrest⟩ : ∃ h₁, Table (K.setHeap h₁) ∧
      (K.setHeap h₁).list = Function.update K.list .runQueue (scheduled b p rest) ∧
      ∀ {α : Type} (f : Unit → KernelM α),
        (if (!b) = true then rotate >>= f else f ()).run K = (f ()).run (K.setHeap h₁) := by
    cases b with
    | true =>
        refine ⟨K.heap, h, ?_, fun f => rfl⟩
        rw [scheduled, if_pos rfl, ← hrun, Function.update_eq_self]
        rfl
    | false =>
        obtain ⟨h₁, e, hL, hlist⟩ := rotate_spec h.linked hrun
        refine ⟨h₁, ⟨hL, ?_, fun q st hq p' hp' => ?_⟩, hlist, fun f => run_bind_ok e⟩
        · rw [hlist]
          have hnd := h.sparse.nodup .runQueue
          rw [hrun] at hnd
          refine h.sparse.update ?_ fun p' hm => .inl ?_
          · exact (List.perm_append_singleton p rest).nodup_iff.mpr hnd
          · rw [hrun]
            simpa [or_comm] using hm
        · refine h.status q st hq p' ?_
          rw [hlist] at hp'
          by_cases e : q = .runQueue
          · subst e
            rw [Function.update_self] at hp'
            rw [hrun]
            simpa [or_comm] using hp'
          · rwa [Function.update_of_ne e] at hp'
  obtain ⟨cur, more, hs⟩ : ∃ cur more, scheduled b p rest = cur :: more := by
    refine List.exists_cons_of_ne_nil ?_
    cases b <;> simp [scheduled]
  have hcur : (K.setHeap h₁).list .runQueue = cur :: more := by rw [hl₁, Function.update_self, hs]
  have hzombies : ((K.setHeap h₁).setCurrent (some cur)).list .zombieQueue =
      K.list .zombieQueue := by rw [KState.setCurrent_list, hl₁]; simp
  obtain ⟨l, efirst⟩ := hT₁.linked.firstPcb hcur
  obtain ⟨h₂, b₂, e₂, hT₂, hl₂⟩ := freeZombies_spec (hT₁.setCurrent (some cur)) hzombies
    (length_lt_of_nodup (h.sparse.nodup .zombieQueue))
  refine ⟨h₂, b₂, ?_, hT₂.congr rfl rfl (KState.inuse_congr rfl rfl rfl), ?_⟩
  · have e := isEmpty_spec (q := .runQueue) h.linked rfl
    rw [processSchedule, run_bind_ok e, hrun]
    simp only [reduceCtorEq, decide_false, Bool.false_eq_true, if_false]
    refine (hrest fun _ => _).trans ?_
    rw [run_bind_ok efirst, hs]
    exact e₂
  · have hl₃ : (K.remake h₂ b₂).list =
        (((K.setHeap h₁).setCurrent (some cur)).remake h₂ b₂).list :=
      KState.list_congr rfl (KState.inuse_congr rfl rfl rfl)
    rw [hl₃, hl₂, KState.setCurrent_list, hl₁]
    simp

/-- Type bits are no status bits. -/
theorem status_or_type (f t : BitVec 32) (ht : t &&& processStatusMask = 0) :
    (f ||| t) &&& processStatusMask = f &&& processStatusMask := by
  refine BitVec.eq_of_getLsbD_eq fun i _ => ?_
  have h : (t.getLsbD i && processStatusMask.getLsbD i) = false := by
    rw [← BitVec.getLsbD_and, ht]
    simp
  rw [BitVec.getLsbD_and, BitVec.getLsbD_or, BitVec.getLsbD_and, Bool.and_or_distrib_right, h,
    Bool.or_false]

namespace KState

@[simp] theorem setIntrs_inuse (K : KState) (level : BitVec 4) :
    (K.setIntrs level).inuse = K.inuse := inuse_congr rfl rfl rfl

@[simp] theorem setIntrs_list (K : KState) (level : BitVec 4) :
    (K.setIntrs level).list = K.list := list_congr rfl (by simp)

end KState

theorem Table.setIntrs (h : Table K) (level : BitVec 4) : Table (K.setIntrs level) :=
  h.congr rfl rfl (by simp)

theorem disableIntrs_run : disableIntrs.run K = .ok (K.intrs, K.setIntrs 0xf) := rfl

theorem restoreIntrs_run (level : BitVec 4) :
    (restoreIntrs level).run K = .ok ((), K.setIntrs level) := rfl

/-- The last part of a fork puts the new process at the tail of the run queue. -/
theorem forkRun_spec (h : Table K) (hp : ∀ r, r.isTable = true → p ∉ K.list r)
    (hst : K.statusOf p = processStatusRunnable) {t : BitVec 32}
    (ht : t &&& processStatusMask = 0) :
    ∃ h' b', (forkRun p t).run K =
        .ok ((p.val : Int), (K.remake h' b').setCurrent (K.currentPCB.or (some p))) ∧
      Table (K.remake h' b') ∧
      (K.remake h' b').list = Function.update K.list .runQueue (K.list .runQueue ++ [p]) := by
  let K₁ := (K.setFlags p ((K.pcbs p).flags ||| t)).setIntrs 0xf
  have hT₁ : Table K₁ := (h.setFlags_gone hp _).setIntrs 0xf
  have hlist₁ : K₁.list = K.list := by simp [K₁]
  have hst₁ : K₁.statusOf p = processStatusRunnable := by
    rw [show K₁.statusOf p = ((K.pcbs p).flags ||| t) &&& processStatusMask from
      KState.setFlags_statusOf .., status_or_type _ _ ht]
    exact hst
  obtain ⟨h', b', e, hT, hlist, -⟩ := hT₁.link (q := .runQueue) rfl hst₁
    (by rw [hlist₁]; exact hp) (linksTo_last rfl) (fun p ps => List.perm_append_comm)
    "FATAL ERROR: could not get link for forked PCB in ProcessFork!\n"
    "FATAL ERROR: could not insert link into runQueue in ProcessFork!\n"
  rw [hlist₁] at hlist
  have hsame : (K₁.remake h' b').setIntrs K.intrs = K.remake h' b' := rfl
  refine ⟨h', b', ?_, hT.congr rfl rfl (KState.inuse_congr rfl rfl rfl), ?_⟩
  · have e₀ : (modify (fun K => K.setFlags p ((K.pcbs p).flags ||| t)) : KernelM Unit).run K =
        .ok ((), K.setFlags p ((K.pcbs p).flags ||| t)) := rfl
    rw [forkRun, run_bind_ok e₀, run_bind_ok disableIntrs_run, run_bind_ok e,
      run_bind_ok (restoreIntrs_run _), get_bind_run]
    change (StateT.run (if K.currentPCB = none then _ else _) (K.remake h' b')) = _
    cases hc : K.currentPCB with
    | none => rfl
    | some c =>
        have hself : (K.remake h' b').setCurrent (some c) = K.remake h' b' := by
          simp [KState.setCurrent, KState.remake, ← hc]
        rw [Option.some_or, hself]
        rfl
  · rw [← hlist]
    exact KState.list_congr rfl (KState.inuse_congr rfl rfl rfl)

/-- What a fork leaves behind when it returns. -/
inductive Forked (K : KState) (r : Int) (K' : KState) : Prop
  | run {p rest h' b'} (free : K.list .freepcbs = p :: rest) (hr : r = p.val)
      (hK : K' = (K.remake h' b').setCurrent (K.currentPCB.or (some p)))
      (table : Table (K.remake h' b'))
      (list : (K.remake h' b').list = Function.update (Function.update K.list .freepcbs rest)
        .runQueue (K.list .runQueue ++ [p]))
  | failed {p rest h' b'} (free : K.list .freepcbs = p :: rest) (hr : r = -1)
      (hK : K' = K.remake h' b') (table : Table (K.remake h' b'))
      (list : (K.remake h' b').list = Function.update K.list .freepcbs (rest ++ [p]))

theorem takePcb_empty (h : Table K) (hfree : K.list .freepcbs = []) :
    Ends takePcb K ["FATAL error: no free processes!\n"] := by
  have eempty := isEmpty_spec (q := .freepcbs) (h.setIntrs 0xf).linked rfl
  rw [KState.setIntrs_list, hfree] at eempty
  rw [Ends, takePcb, run_bind_ok disableIntrs_run, run_bind_ok eempty]
  rfl

/-- The first free PCB is taken, which is on no queue then. -/
theorem takePcb_spec (h : Table K) {rest : List PcbPtr} (hfree : K.list .freepcbs = p :: rest) :
    ∃ h' b', takePcb.run K = .ok (p, K.remake h' b') ∧
      Table (K.remake h' b') ∧ (K.remake h' b').list = Function.update K.list .freepcbs rest ∧
      (∀ r, r.isTable = true → p ∉ (K.remake h' b').list r) ∧
      (K.remake h' b').statusOf p = processStatusRunnable := by
  have hT₀ := h.setIntrs 0xf
  have eempty := isEmpty_spec (q := .freepcbs) hT₀.linked rfl
  have hfree₀ : (K.setIntrs 0xf).list .freepcbs = p :: rest := by simpa using hfree
  obtain ⟨l, efirst⟩ := hT₀.linked.firstPcb hfree₀
  obtain ⟨h₁, b₁, e₁, hT₁, hl₁, -, hgone⟩ := Table.unlink (p := p) (q := .freepcbs) hT₀.linked
    hT₀.sparse rfl (by simp [hfree]) (fun q st hq p' hp' _ => hT₀.status q st hq p' hp')
    "FATAL ERROR: could not remove link from freepcbsQueue in ProcessFork!\n"
  rw [KState.setIntrs_list, hfree, List.erase_cons_head] at hl₁
  let K₂ := ((K.setIntrs 0xf).remake h₁ b₁).setFlags p
    (((b₁ p).flags &&& ~~~processStatusMask) ||| processStatusRunnable)
  have eset : (processSetStatus p processStatusRunnable).run ((K.setIntrs 0xf).remake h₁ b₁) =
      .ok ((), K₂) := rfl
  have hT₃ : Table (K₂.setIntrs K.intrs) := (hT₁.setFlags_gone hgone _).setIntrs _
  have hl₃ : (K₂.setIntrs K.intrs).list = Function.update K.list .freepcbs rest := by
    simpa [K₂] using hl₁
  refine ⟨h₁, K₂.pcbs, ?_, hT₃, hl₃, ?_, ?_⟩
  · rw [takePcb, run_bind_ok disableIntrs_run, run_bind_ok eempty, hfree₀]
    simp only [reduceCtorEq, decide_false, Bool.false_eq_true, if_false]
    rw [run_bind_ok efirst, run_bind_ok e₁, run_bind_ok eset,
      run_bind_ok (restoreIntrs_run K.intrs)]
    rfl
  · rw [show (K.remake h₁ K₂.pcbs).list = (K₂.setIntrs K.intrs).list from rfl, hl₃, ← hl₁]
    exact hgone
  · exact (KState.setFlags_statusOf ..).trans (status_set _ (by decide))

theorem processFork_takes (h : Table K) {rest : List PcbPtr}
    (hfree : K.list .freepcbs = p :: rest) (a : ForkAnswers) :
    ∃ h' b', (processFork a).run K = (forkLoad a p).run (K.remake h' b') ∧
      Table (K.remake h' b') ∧ (K.remake h' b').list = Function.update K.list .freepcbs rest ∧
      (∀ r, r.isTable = true → p ∉ (K.remake h' b').list r) ∧
      (K.remake h' b').statusOf p = processStatusRunnable := by
  obtain ⟨h', b', e, rest⟩ := takePcb_spec h hfree
  exact ⟨h', b', by rw [processFork, run_bind_ok e], rest⟩

/-- A fork that gets its memory and its file creates a process. -/
theorem processFork_runs (h : Table K) {rest : List PcbPtr}
    (hfree : K.list .freepcbs = p :: rest) {a : ForkAnswers} (hu : a.userPage ≠ 0)
    (hs : a.stackPage ≠ 0) (hfd : ∀ fd, a.fd = some fd → 0 ≤ fd) :
    ∃ K', (processFork a).run K = .ok ((p.val : Int), K') ∧ Forked K p.val K' := by
  obtain ⟨h₁, b₁, e₁, hT₁, hl₁, hgone, hst⟩ := processFork_takes h hfree a
  have forked : ∀ t, t &&& processStatusMask = 0 →
      ∃ K', (forkRun p t).run (K.remake h₁ b₁) = .ok ((p.val : Int), K') ∧ Forked K p.val K' := by
    intro t ht
    obtain ⟨h₂, b₂, e₂, hT₂, hl₂⟩ := forkRun_spec hT₁ hgone hst ht
    refine ⟨_, e₂, .run hfree rfl rfl hT₂ (hl₂.trans ?_)⟩
    rw [hl₁]
    simp
  rw [e₁, forkLoad, if_neg hu, if_neg hs]
  cases hfd' : a.fd with
  | none => exact forked processTypeSystem (by decide)
  | some fd =>
      have hneg : ¬ fd < 0 := not_lt.mpr (hfd fd hfd')
      simp only [if_neg hneg]
      exact forked processTypeUser (by decide)

/-- The text of a fork that gets no PCB or no page. -/
def ForkAnswers.refusal (a : ForkAnswers) (free : List PcbPtr) : Option String :=
  if free = [] then some "FATAL error: no free processes!\n"
  else if a.userPage = 0 then some "aFATAL: couldn't allocate memory - no free pages!\n"
  else if a.stackPage = 0 then some "bFATAL: couldn't allocate system stack - no free pages!\n"
  else none

theorem ForkAnswers.refusal_notice {a : ForkAnswers} {free : List PcbPtr} {t : String}
    (h : a.refusal free = some t) : IsNotice t := by
  unfold refusal at h
  split_ifs at h <;> obtain rfl := Option.some.inj h
  · exact .noPcb
  · exact .noPage
  · exact .noStack

/-- A fork ends the simulation for want of a PCB or a page. Otherwise it creates a process, or
fails and gives the PCB back. -/
theorem processFork_spec (h : Table K) (a : ForkAnswers) :
    (∃ t, a.refusal (K.list .freepcbs) = some t ∧ Ends (processFork a) K [t]) ∨
      a.refusal (K.list .freepcbs) = none ∧
        ∃ r K', (processFork a).run K = .ok (r, K') ∧ Forked K r K' := by
  cases hfree : K.list .freepcbs with
  | nil =>
      refine .inl ⟨_, rfl, ?_⟩
      rw [Ends, processFork, StateT.run_bind, takePcb_empty h hfree]
      rfl
  | cons p rest =>
      obtain ⟨h₁, b₁, e₁, hT₁, hl₁, hgone, hst⟩ := processFork_takes h hfree a
      unfold ForkAnswers.refusal Ends
      rw [if_neg (List.cons_ne_nil p rest)]
      by_cases hu : a.userPage = 0
      · rw [e₁, forkLoad, if_pos hu, if_pos hu]
        exact .inl ⟨_, rfl, rfl⟩
      by_cases hs : a.stackPage = 0
      · rw [e₁, forkLoad, if_neg hu, if_pos hs, if_neg hu, if_pos hs]
        exact .inl ⟨_, rfl, rfl⟩
      refine .inr ⟨by rw [if_neg hu, if_neg hs], ?_⟩
      by_cases hfd : ∃ fd, a.fd = some fd ∧ fd < 0
      · obtain ⟨fd, hfd, hneg⟩ := hfd
        obtain ⟨h₂, b₂, e₂, hT₂, hl₂⟩ := processFreeResources_spec hT₁ hgone
        refine ⟨-1, _, ?_, .failed hfree rfl rfl hT₂ (hl₂.trans ?_)⟩
        · rw [e₁, forkLoad, if_neg hu, if_neg hs, hfd]
          simp only [if_pos hneg]
          change StateT.run (processFreeResources p >>= _) _ = _
          rw [run_bind_ok e₂]
          rfl
        · rw [hl₁]
          simp
      · obtain ⟨K', e, hf⟩ := processFork_runs h hfree hu hs fun fd he =>
          not_lt.mp fun c => hfd ⟨fd, he, c⟩
        exact ⟨_, K', e, hf⟩

end DlxOs.Kernel
