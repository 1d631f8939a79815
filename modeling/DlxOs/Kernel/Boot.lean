import DlxOs.Kernel.CreateSpec

/-!
# The initialisation of the kernel

`boot` is the part of `main` that sets up links, processes and synchronization
tools. It starts from static memory, which is zero, and leaves all PCBs free.
-/

namespace DlxOs.Kernel

open Queue Monitors

/-- The calls of `AQueueModuleInit`, `ProcessModuleInit` and `SynchModuleInit` in `main`. -/
def boot : KernelM Unit := do
  match aQueueModuleInit (← get).heap with
  | none => fatal "FATAL ERROR: could not insert link into freeLinks in AQueueModuleInit!\n"
  | some (_, h) => modify fun K => K.setHeap h
  processModuleInit
  let _ ← synchModuleInit

/-- Static memory before `main`, as far as it matters. -/
structure Static (K : KState) : Prop where
  inuse : ∀ w, K.inuse w = false
  counts : ∀ s, (K.sems s).count = 0
  console : K.console = []

variable {K : KState} {p : PcbPtr}

theorem initOwnQueue_run (q : KQueue) :
    (initOwnQueue q).run K = .ok ((), K.setHeap (aQueueInit K.heap (some (.named q))).2) := rfl

/-- One round of the loop over the PCBs. -/
theorem initPcb_spec (h : Table K) (hp : ∀ r, r.isTable = true → p ∉ K.list r) :
    ∃ h' b', (initPcb p).run K = .ok ((), K.remake h' b') ∧ Table (K.remake h' b') ∧
      (K.remake h' b').list = Function.update K.list .freepcbs (p :: K.list .freepcbs) := by
  let K₁ := K.setFlags p processStatusFree
  have hlist : K₁.list = K.list := KState.setFlags_list ..
  have hself : K₁.statusOf p = processStatusFree := by
    rw [KState.setFlags_statusOf]
    decide
  have hT₁ : Table K₁ := h.setFlags_gone hp processStatusFree
  obtain ⟨h', b', e, hT, hlist', -⟩ := hT₁.link (q := .freepcbs) rfl hself
    (by rw [hlist]; exact hp) (linksTo_first rfl) (fun p ps => List.Perm.refl _)
    "FATAL ERROR: could not allocate link in ProcessModuleInit!\n"
    "FATAL ERROR: could not insert PCB link into queue in ProcessModuleInit!\n"
  rw [hlist] at hlist'
  refine ⟨h', b', ?_, hT, hlist'⟩
  rw [initPcb, allocPcb_setFlags]
  exact e

/-- The loop over the PCBs puts them in front of the free ones, one by one. -/
theorem initPcbs_spec (ps : List PcbPtr) : ∀ {K : KState}, Table K → ps.Nodup →
    (∀ p ∈ ps, ∀ r, r.isTable = true → p ∉ K.list r) →
    ∃ h' b', (ps.forM initPcb).run K = .ok ((), K.remake h' b') ∧ Table (K.remake h' b') ∧
      (K.remake h' b').list =
        Function.update K.list .freepcbs (ps.reverse ++ K.list .freepcbs) := by
  induction ps with
  | nil =>
      intro K h _ _
      exact ⟨K.heap, K.pcbs, rfl, h, by simp⟩
  | cons p rest ih =>
      intro K h hnd hp
      obtain ⟨hpr, hrest⟩ := List.nodup_cons.mp hnd
      obtain ⟨h₁, b₁, e₁, hT₁, hl₁⟩ := initPcb_spec h (hp p (by simp))
      obtain ⟨h₂, b₂, e₂, hT₂, hl₂⟩ := ih hT₁ hrest fun p' hm r hr => by
        rw [hl₁]
        by_cases e : r = .freepcbs
        · subst e
          rw [Function.update_self, List.mem_cons, not_or]
          exact ⟨fun c => hpr (c ▸ hm), hp p' (by simp [hm]) _ hr⟩
        · rw [Function.update_of_ne e]
          exact hp p' (by simp [hm]) r hr
      refine ⟨h₂, b₂, ?_, hT₂, ?_⟩
      · change StateT.run (initPcb p >>= fun _ => rest.forM initPcb) K = _
        rw [run_bind_ok e₁]
        exact e₂
      · refine hl₂.trans ?_
        rw [hl₁]
        simp

/-- All links are free, and the queues `Q` are initialised and empty. -/
def Bare (h : Heap KQueue PcbPtr) (Q : List KQueue) : Prop :=
  ∃ S : Pool KQueue PcbPtr, Represents h S ∧ (∀ q, .named q ∈ S.known ↔ q ∈ Q) ∧
    (∀ q ∈ Q, S.items (.named q) = []) ∧ ∀ l, l ∈ S.items .freeLinks

theorem aQueueModuleInit_bare (h : Heap KQueue PcbPtr) :
    ∃ h', aQueueModuleInit h = some (queueSuccess, h') ∧ Bare h' [] := by
  obtain ⟨h', e, t⟩ := aQueueModuleInit_represents h
  refine ⟨h', e, _, t, fun q => ?_, by simp, fun l => ?_⟩
  · simp [Pool.boot]
  · have hitems : (Pool.boot h').items .freeLinks = List.finRange queueMaxLinks := by
      simp only [Pool.boot, if_true]
    rw [hitems]
    exact List.mem_finRange l

/-- One more queue is initialised. -/
theorem Bare.init {h : Heap KQueue PcbPtr} {Q : List KQueue} (hb : Bare h Q) {q : KQueue}
    (hq : q ∉ Q) : Bare (aQueueInit h (some (.named q))).2 (q :: Q) := by
  obtain ⟨S, t, hk, he, hf⟩ := hb
  refine ⟨_, t.init fun hm => hq ((hk q).mp hm), fun r => ?_, fun r hr => ?_, fun l => ?_⟩
  · simp [hk]
  · by_cases e : r = q
    · subst e
      exact Pool.setItems_self ..
    · refine (Pool.setItems_of_ne _ (by simpa using e) _).trans (he r ?_)
      exact (List.mem_cons.mp hr).resolve_left e
  · have hitems : (S.setItems (.named q) []).items .freeLinks = S.items .freeLinks :=
      Pool.setItems_of_ne S (by simp) []
    rw [hitems]
    exact hf l

/-- With the queues of the process table initialised, the kernel has its table. -/
theorem Bare.table {Q : List KQueue} (hb : Bare K.heap Q) (hQ : ∀ q, q ∈ Q ↔ q.isTable = true)
    (hs : ∀ w, K.inuse w = false) : Table K ∧ ∀ q, K.list q = [] := by
  obtain ⟨S, t, hk, he, hf⟩ := hb
  have hready : ∀ q, K.ready q = true ↔ q ∈ Q := by
    intro q
    rw [hQ]
    cases q with
    | waiting w => simp [KState.ready, KQueue.isTable, hs w]
    | _ => simp [KState.ready, KQueue.isTable]
  have hS : LinkedBy K S := by
    refine ⟨t, fun q => (hk q).trans (hready q).symm, fun q hq l hl => ?_,
      fun l => ⟨.freeLinks, t.free_known, hf l⟩, fun q hq l hl => ?_⟩
    · rw [he q ((hready q).mp hq)] at hl
      cases hl
    · rw [he q ((hQ q).mpr hq)] at hl
      cases hl
  have hnil : ∀ q, K.list q = [] := by
    intro q
    by_cases hq : K.ready q = true
    · rw [hS.list_eq hq, pids, he q ((hready q).mp hq)]
      rfl
    · rw [KState.list, if_neg hq]
  refine ⟨⟨⟨S, hS⟩, ⟨fun q => by simp [hnil], fun q r p _ hm => ?_⟩, fun q st _ p hm => ?_⟩, hnil⟩
  · rw [hnil] at hm
    cases hm
  · rw [hnil] at hm
    cases hm

/-- The state in which `main` starts the first process. -/
structure Booted (K : KState) : Prop where
  table : Table K
  inuse : ∀ w, K.inuse w = false
  counts : ∀ s, (K.sems s).count = 0
  free : ∀ p, p ∈ K.list .freepcbs
  empty : ∀ q, q ≠ .freepcbs → K.list q = []
  current : K.currentPCB = none
  console : K.console = []

/-- The initialisation succeeds. -/
theorem boot_spec (hs : Static K) : ∃ K', boot.run K = .ok ((), K') ∧ Booted K' := by
  obtain ⟨h₀, e₀, b₀⟩ := aQueueModuleInit_bare K.heap
  have b₁ := b₀.init (q := .freepcbs) (by simp)
  have b₂ := b₁.init (q := .runQueue) (by simp)
  have b₃ := b₂.init (q := .waitQueue) (by simp)
  have b₄ := b₃.init (q := .zombieQueue) (by simp)
  generalize e₄ : (aQueueInit _ (some (.named KQueue.zombieQueue))).2 = h₄ at b₄
  have hinuse : ∀ w, (K.setHeap h₄).inuse w = false := fun w => by
    rw [show (K.setHeap h₄).inuse = K.inuse from KState.inuse_congr rfl rfl rfl]
    exact hs.inuse w
  obtain ⟨hT, hnil⟩ := Bare.table (K := K.setHeap h₄) b₄
    (fun q => by cases q <;> simp [KQueue.isTable]) hinuse
  obtain ⟨h₅, p₅, e₅, hT₅, hl₅⟩ := initPcbs_spec (List.finRange processMaxProcs) hT
    (List.nodup_finRange _) fun p _ r _ => by simp [hnil]
  let K₅ := (K.setHeap h₄).remake h₅ p₅
  let K₆ : KState := { K₅.setCurrent none with
    sems := fun s => { K.sems s with inuse := false }
    locks := fun k => { K.locks k with inuse := false }
    conds := fun c => { K.conds c with inuse := false } }
  have hsame : K₆.inuse = K₅.inuse := by
    funext w
    have := hs.inuse w
    cases w <;> exact this.symm
  have hl₆ : K₆.list = K₅.list := KState.list_congr rfl hsame
  refine ⟨K₆, ?_, hT₅.congr rfl rfl hsame, fun w => ?_, hs.counts, fun p => ?_,
    fun q hq => ?_, rfl, hs.console⟩
  · have em : (modify fun K => K.setHeap h₀ : KernelM Unit).run K = .ok ((), K.setHeap h₀) := rfl
    have ep : processModuleInit.run (K.setHeap h₀) = .ok ((), K₅.setCurrent none) := by
      rw [processModuleInit, run_bind_ok (initOwnQueue_run _), run_bind_ok (initOwnQueue_run _),
        run_bind_ok (initOwnQueue_run _), run_bind_ok (initOwnQueue_run _)]
      simp only [KState.setHeap_heap, KState.setHeap_setHeap, e₄]
      rw [run_bind_ok e₅]
      rfl
    rw [boot, get_bind_run, e₀]
    change StateT.run ((modify fun K : KState => K.setHeap h₀ : KernelM Unit) >>= _) K = _
    rw [run_bind_ok em, run_bind_ok ep]
    rfl
  · rw [hsame]
    exact hinuse w
  · rw [hl₆, hl₅]
    simp [hnil]
  · rw [hl₆, hl₅, Function.update_of_ne hq]
    exact hnil q

end DlxOs.Kernel
