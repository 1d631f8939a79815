import DlxOs.Traps.Bounds
import DlxOs.Traps.UserMemory
import DlxOs.Memory.ForkPages
import DlxOs.Memory.LifeCycle

/-!
# The start of a user process

`ProcessFork` writes the argument buffer and the vector of its pointers into the
page of the new process. A program finds the number of its arguments, the
vector and the strings there, as its creator had them.

## Implementation notes

The memory is the one that the load of the program file has left.
-/

namespace DlxOs.Traps

open Kernel (Halt PcbPtr)
open Kernel (ok_bind ok_bind_inv)
open Memory (Bytes memoryPageSize)

variable {j rounds location : ℕ} {a u frame trapArgs : Word} {bs bs' : List Byte} {ws : List Word}
  {ss : List (List Byte)} {space : UserSpace} {l : CreateArrays} {str : Chars sizeArgBuff}
  {args : Chars (4 * maxArgs)} {pcb : Memory.PCB} {mem : Bytes} {p : PcbPtr}

/-- What a new process starts with. -/
structure Started where
  name : PcbName
  /-- Register 29. -/
  sp : Word
  mem : Bytes

/-- The part of `ProcessFork` that puts the arguments into the memory of the new process, with the
stack pointer. -/
def startArguments (pcb : Memory.PCB) (allargs : Chars sizeArgBuff) (dum : Dum) (mem : Bytes) :
    Except Halt (Word × Bytes) := do
  let mem ← memoryCopySystemToUser pcb ((allargs.rest 0).take (sizeArgBuff - 32)) argBase mem
  let (count, dum) ← forkArguments allargs dum
  let sp := argBase - BitVec.ofNat 32 (4 * count)
  let mem ← memoryCopySystemToUser pcb (((List.ofFn dum).take count).flatMap bytesOf) sp mem
  return (sp, mem)

/-- The part of `ProcessFork` that concerns the name and the arguments. -/
def startUser (pcb : Memory.PCB) (call : ForkCall) (name : PcbName) (dum : Dum) (mem : Bytes) :
    Except Halt Started := do
  let name ← copyChars call.name 100 0 name
  let (sp, mem) ← startArguments pcb call.allargs dum mem
  return ⟨name, sp, mem⟩

/-! ### The page of the new process -/

/-- A process that was forked has one page. -/
theorem fork_onePage {s s' : Memory.Os} {fd rv : ℤ} (hfd : 0 ≤ fd)
    (e : Memory.processFork s p (some fd) = .ok (rv, s')) :
    ∃ frame, OnePage (s'.pcbs p) frame := by
  obtain ⟨t, et, e⟩ := ok_bind_inv e
  obtain ⟨first, stack, m₁, m₂, hfirst, hne, -, -, rfl⟩ := Memory.forkPages_inv et
  have e' : Except.ok (_, _) = Except.ok (rv, s') := (if_neg (not_lt.mpr hfd)).symm.trans e
  obtain rfl := (Prod.mk.inj (Except.ok.inj e')).2
  refine ⟨_, ?_, first, hne, ?_, rfl, ?_⟩
  · simp [Memory.Os.setFlags, Memory.Os.took_npages]
  · exact (Memory.memoryAllocPage_inv hfirst hne).1.trans_le (by decide)
  · simp [Memory.Os.setFlags, Memory.Os.took_entry]

/-! ### From the creator to the new process -/

/-- The vector ends with its null pointer. -/
theorem argVector_words (h : ∀ k (hk : k < ws.length), args.word (j + k) = .ok ws[k])
    (hz : ∀ a ∈ ws, a ≠ 0) (hend : args.word (j + ws.length) = .ok 0) (hr : ws.length ≤ rounds) :
    argVector args rounds j = ws := by
  induction ws generalizing j rounds with
  | nil =>
      cases rounds with
      | zero => rfl
      | succ rounds => exact argVector_zero hend
  | cons w ws ih =>
      obtain ⟨rounds, rfl⟩ := Nat.exists_eq_add_of_le' (Nat.zero_lt_of_lt hr)
      have hw : args.word j = .ok w := h 0 (by simp)
      rw [argVector_succ hw (hz w (List.mem_cons_self ..)), ih]
      · intro k hk
        have := h (k + 1) (by simpa using hk)
        rw [show j + 1 + k = j + (k + 1) by omega, this]
        rfl
      · exact fun a ha => hz a (List.mem_cons_of_mem _ ha)
      · rw [← hend, List.length_cons]
        congr 1
        omega
      · simpa using hr

theorem backToBack_split : backToBack (bs :: ss) = (bs ++ [0]) ++ backToBack ss := by
  simp [backToBack]

/-- Strings that were put back to back are found again. -/
theorem found_of_load
    (h : ∀ m (hm : m < (backToBack ss).length), str.load (location + m) = .ok (backToBack ss)[m])
    (hlen : location + (backToBack ss).length ≤ 100)
    (hend : ∀ k, location + (backToBack ss).length ≤ k → k < 100 → str.load k = .ok 0)
    (hne : ∀ u ∈ ss, u ≠ []) (hz : ∀ u ∈ ss, ∀ b ∈ u, b ≠ 0) : Found str location ss := by
  induction ss generalizing location with
  | nil => exact ⟨hlen, fun hlt => hend _ le_rfl (by omega)⟩
  | cons u us ih =>
      have hcons : (backToBack (u :: us)).length = u.length + 1 + (backToBack us).length := by
        rw [backToBack_cons, List.length_append, List.length_cons]
        omega
      rw [hcons] at hlen hend
      refine ⟨hne u (List.mem_cons_self ..), ?_, by omega, ih ?_ (by omega) ?_ ?_ ?_⟩
      · apply stringAt_of_load (hz u (List.mem_cons_self ..))
        intro m hm
        rw [List.length_append, List.length_singleton] at hm
        rw [h m (by omega), List.getElem_of_eq backToBack_split, List.getElem_append_left]
      · intro m hm
        have := h (u.length + 1 + m) (by omega)
        rw [show location + u.length + 1 + m = location + (u.length + 1 + m) by omega, this]
        rw [List.getElem_of_eq backToBack_split, List.getElem_append_right (by simp)]
        simp
      · intro k hk hlt
        exact hend k (by omega) hlt
      · exact fun v hv => hne v (List.mem_cons_of_mem _ hv)
      · exact fun v hv => hz v (List.mem_cons_of_mem _ hv)

theorem strings_of_reads (h : Reads space a (backToBack ss)) (hz : ∀ u ∈ ss, ∀ b ∈ u, b ≠ 0) :
    List.Forall₂ (HasString space) (pointers a ss) ss := by
  induction ss generalizing a with
  | nil => exact .nil
  | cons u us ih =>
      rw [backToBack_split, reads_append, List.length_append, List.length_singleton] at h
      exact .cons ⟨hz u (List.mem_cons_self ..), h.1⟩
        (ih h.2 fun v hv => hz v (List.mem_cons_of_mem _ hv))

/-- What a program finds at its stack pointer: the number of its arguments, and the address of a
vector of as many words that point to them. -/
def StartsWith (space : UserSpace) (sp : Word) (ss : List (List Byte)) : Prop :=
  ∃ argv ps, HasWord space sp (BitVec.ofNat 32 ss.length) ∧ HasWord space (sp + 4) argv ∧
    HasWords space argv ps ∧ List.Forall₂ (HasString space) ps ss

/-- The words of the stack and the strings of the buffer make up the arguments. -/
theorem startsWith_of_reads {sp : Word}
    (hsp : sp = argBase - BitVec.ofNat 32 (4 * (ss.length + 2)))
    (hstack : HasWords space sp (stackWords ss)) (hbuffer : Reads space argBase (backToBack ss))
    (hz : ∀ u ∈ ss, ∀ b ∈ u, b ≠ 0) : StartsWith space sp ss := by
  unfold HasWords stackWords at hstack
  rw [List.flatMap_cons, List.flatMap_cons, reads_append, reads_append] at hstack
  obtain ⟨hcount, hargv, hvector⟩ := hstack
  refine ⟨_, _, hcount, hargv, ?_, strings_of_reads hbuffer hz⟩
  have hat : sp + 4 + 4 = argBase - BitVec.ofNat 32 (ss.length * 4) := by
    rw [hsp]
    bv_omega
  rw [← hat]
  exact hvector

theorem received_word (hws : HasWords space trapArgs (ws ++ [0])) (hlen : ws.length ≤ 11) {k : ℕ}
    (hk : k < (ws ++ [0]).length) : (received space trapArgs l).word k = .ok (ws ++ [0])[k] := by
  have hmax : 4 * (ws ++ [0]).length ≤ 4 * maxArgs := by
    rw [List.length_append, List.length_singleton]
    unfold maxArgs
    omega
  exact word_readable hws hk hmax hmax

/-- The words of a process that are followed by a null pointer are all of the vector. -/
theorem argVector_received (hws : HasWords space trapArgs (ws ++ [0])) (hz : ∀ a ∈ ws, a ≠ 0)
    (hlen : ws.length ≤ 11) : argVector (received space trapArgs l) 11 0 = ws := by
  apply argVector_words _ hz _ hlen
  · intro k hk
    rw [Nat.zero_add, received_word hws hlen (by simp; omega), List.getElem_append_left hk]
  · rw [Nat.zero_add, received_word hws hlen (by simp), List.getElem_append_right le_rfl]
    simp

/-- The buffer as it is handed on. -/
theorem handed_load (allargs : Chars sizeArgBuff) (bs : List Byte) {m : ℕ} (hm : m < 100) :
    Chars.load (Function.update (place (cleared allargs) 0 bs) ⟨1023, by decide⟩ 0) m =
      .ok (bs[m]?.getD 0) := by
  have hin : m < sizeArgBuff := by
    unfold sizeArgBuff
    omega
  rw [Chars.load_eq hin, Function.update_of_ne (Fin.ne_of_lt (show m < 1023 by omega))]
  congr 1
  rcases Nat.lt_or_ge m bs.length with hlt | hge
  · rw [place_at (Nat.zero_le _) hlt, List.getElem?_eq_getElem hlt]
    rfl
  · rw [place_beyond (by simpa using hge), List.getElem?_eq_none hge]
    exact if_pos hm

theorem handed_starts {allargs : Chars sizeArgBuff} (hlen : bs.length ≤ 100) :
    bs <+: (Chars.rest (Function.update (place (cleared allargs) 0 bs) ⟨1023, by decide⟩ 0) 0).take
      (sizeArgBuff - 32) := by
  rw [List.prefix_iff_getElem]
  have hsize : 100 < sizeArgBuff - 32 := by decide
  refine ⟨by simp; omega, fun m hm => ?_⟩
  have hload := handed_load allargs bs (show m < 100 by omega)
  rw [Chars.load_eq (show m < sizeArgBuff by omega), List.getElem?_eq_getElem hm] at hload
  have hat := Except.ok.inj hload
  rw [List.getElem_take]
  simp only [Chars.rest, List.drop_zero, List.getElem_ofFn]
  exact hat.symm

@[simp] theorem length_stackWords : (stackWords ss).length = ss.length + 2 := by
  have hpointers : ∀ a, (pointers a ss).length = ss.length := by
    induction ss with
    | nil => exact fun _ => rfl
    | cons u us ih => exact fun a => congrArg (· + 1) (ih _)
  simp [stackWords, hpointers]

/-- The words of `dum` that are copied. -/
theorem take_dum {d : Dum} (hmax : ss.length ≤ 11) :
    (List.ofFn (place d 0 (stackWords ss ++ [argBase]))).take (ss.length + 2) =
      stackWords ss := by
  have hall := take_place d (stackWords ss ++ [argBase]) (by
    unfold maxArgs
    simp
    omega)
  have htake := congrArg (List.take (ss.length + 2)) hall
  rw [List.take_take, List.length_append, length_stackWords, List.length_singleton,
    min_eq_left (Nat.le_succ _)] at htake
  rw [htake, List.take_left' length_stackWords]

theorem toNat_stackPointer {count : ℕ} (h : count ≤ 103) :
    (argBase - BitVec.ofNat 32 (4 * count)).toNat = argBase.toNat - 4 * count := by
  have hbase : argBase.toNat = 64512 := by decide
  rw [hbase]
  bv_omega

theorem stackPointer_end {count : ℕ} :
    argBase - BitVec.ofNat 32 (4 * count) + BitVec.ofNat 32 (4 * count) = argBase :=
  BitVec.sub_add_cancel ..

/-- The buffer and the words of `dum` come into the page of the new process. -/
theorem startArguments_ok {allargs : Chars sizeArgBuff} {dum dum' : Dum} {count : ℕ}
    {buffer words : List Byte} (mem : Bytes) (h : OnePage pcb frame)
    (hfork : forkArguments allargs dum = .ok (count, dum')) (hcount : count ≤ 103)
    (hb : (allargs.rest 0).take (sizeArgBuff - 32) = buffer)
    (hw : ((List.ofFn dum').take count).flatMap bytesOf = words) :
    ∃ mem', startArguments pcb allargs dum mem =
        .ok (argBase - BitVec.ofNat 32 (4 * count), mem') ∧
      Reads (readUser pcb mem') argBase buffer ∧
      Reads (readUser pcb mem') (argBase - BitVec.ofNat 32 (4 * count)) words := by
  obtain ⟨sp, hsp⟩ : ∃ sp, sp = argBase - BitVec.ofNat 32 (4 * count) := ⟨_, rfl⟩
  have hblen : buffer.length = 992 := by
    rw [← hb, List.length_take, Chars.length_rest]
    rfl
  have hwlen : words.length = 4 * count := by
    rw [← hw, length_bytesOf, List.length_take, List.length_ofFn]
    unfold maxArgs
    omega
  have hbase : argBase.toNat = 64512 := by decide
  have hspNat : sp.toNat = 64512 - 4 * count := by
    rw [hsp, toNat_stackPointer hcount, hbase]
  have hbufferIn : argBase.toNat + buffer.length ≤ memoryPageSize := by
    rw [hblen, hbase]
    decide
  have hwordsIn : sp.toNat + words.length ≤ memoryPageSize := by
    rw [hwlen, hspNat]
    unfold memoryPageSize
    omega
  obtain ⟨mem', hmem⟩ :
      ∃ mem', mem' = poke (poke mem (frame + argBase) buffer) (frame + sp) words := ⟨_, rfl⟩
  rw [← hsp]
  refine ⟨mem', ?_, ?_, ?_⟩
  · unfold startArguments
    rw [hb, copy_page h hbufferIn, ok_bind, hfork, ok_bind]
    simp only
    rw [← hsp, hw, copy_page h hwordsIn, ok_bind, hmem]
    rfl
  · apply reads_page h hbufferIn
    rw [hmem]
    apply reads_poke_before (reads_poke (by rw [hblen]; decide))
    · rw [hwlen, hsp, BitVec.add_assoc, stackPointer_end]
    · rw [hblen, hwlen]
      omega
  · apply reads_page h hwordsIn
    rw [hmem]
    exact reads_poke (by rw [hwlen]; omega)

/-- `ProcessFork` leaves the arguments where the program looks for them. -/
theorem startUser_startsWith {call : ForkCall} {name name' : PcbName} (mem : Bytes) (dum : Dum)
    (h : OnePage pcb frame) (hcopy : copyChars call.name 100 0 name = .ok name')
    (hbuffer : backToBack ss <+: (call.allargs.rest 0).take (sizeArgBuff - 32))
    (hfound : Found call.allargs 0 ss) (hss : ss ≠ []) (hmax : ss.length ≤ 11)
    (hz : ∀ u ∈ ss, ∀ b ∈ u, b ≠ 0) :
    ∃ started, startUser pcb call name dum mem = .ok started ∧
      StartsWith (readUser pcb started.mem) started.sp ss := by
  have hfork : forkArguments call.allargs dum = .ok (ss.length + 2,
      place dum 0 (stackWords ss ++ [argBase])) := by
    obtain ⟨u, us, rfl⟩ := List.exists_cons_of_ne_nil hss
    rw [List.length_cons] at hmax
    exact forkArguments_eq hfound (by omega)
  obtain ⟨buffer, hb⟩ : ∃ buffer, (call.allargs.rest 0).take (sizeArgBuff - 32) = buffer :=
    ⟨_, rfl⟩
  obtain ⟨words, hw⟩ : ∃ words, (stackWords ss).flatMap bytesOf = words := ⟨_, rfl⟩
  have htake := take_dum (d := dum) hmax
  rw [← htake] at hw
  obtain ⟨mem', hstart, hstrings, hstack⟩ := startArguments_ok mem h hfork (by omega) hb hw
  rw [htake] at hw
  rw [← hw] at hstack
  rw [hb] at hbuffer
  refine ⟨⟨name', _, mem'⟩, ?_, startsWith_of_reads rfl hstack (hstrings.of_starts hbuffer) hz⟩
  unfold startUser
  rw [hcopy, ok_bind, hstart, ok_bind]
  rfl

/-- The program name fits into the process control block. -/
theorem firstName_fits (hws : HasWords space trapArgs (ws ++ [0]))
    (hs : List.Forall₂ (HasString space) ws ss) (hss : ss ≠ []) (hmax : ss.length ≤ 11)
    (hname : ∀ u ∈ ss.head?, u.length ≤ 79) :
    (fetched space (programName (received space trapArgs l)) (l.name.rest 0)).length ≤ 80 := by
  have hlen := hs.length_eq.trans_le hmax
  cases hs with
  | nil => exact absurd rfl hss
  | @cons a u ws us hu hus =>
      have hword : (received space trapArgs l).word 0 = .ok a := received_word hws hlen (by simp)
      have hfirst : programName (received space trapArgs l) = a :=
        Except.ok.inj (word_programName.symm.trans hword)
      have hle := hname u rfl
      rw [hfirst, hu.fetched, List.length_take, List.length_append, List.length_singleton]
      omega

/-- The arguments of a process come to the program as the creator had them. -/
theorem arguments_survive (space : UserSpace) (trapArgs : Word) (l : CreateArrays)
    (ws : List Word) (ss : List (List Byte)) (hws : HasWords space trapArgs (ws ++ [0]))
    (hnull : ∀ a ∈ ws, a ≠ 0) (hs : List.Forall₂ (HasString space) ws ss) (hss : ss ≠ [])
    (hmax : ss.length ≤ 11) (hne : ∀ u ∈ ss, u ≠ []) (hname : ∀ u ∈ ss.head?, u.length ≤ 79)
    (hlen : (backToBack ss).length ≤ 100) (s s' : Memory.Os) (p : PcbPtr) (fd rv : ℤ)
    (hfd : 0 ≤ fd) (hfork : Memory.processFork s p (some fd) = .ok (rv, s')) (name : PcbName)
    (dum : Dum) (mem : Bytes) :
    ∃ call started, trapProcessCreateUser space trapArgs l = .ok call ∧
      startUser (s'.pcbs p) call name dum mem = .ok started ∧
      StartsWith (readUser (s'.pcbs p) started.mem) started.sp ss := by
  obtain ⟨frame, hpage⟩ := fork_onePage hfd hfork
  have hvector : argVector (received space trapArgs l) 11 0 = ws :=
    argVector_received hws hnull (hs.length_eq.trans_le hmax)
  obtain ⟨call, hcall, hallargs, hcallName⟩ : ∃ call, trapProcessCreateUser space trapArgs l =
      .ok call ∧ call.allargs = Function.update (place (cleared l.allargs) 0 (backToBack ss))
        ⟨1023, by decide⟩ 0 ∧
      call.name = handedName space (programName (received space trapArgs l)) l.name :=
    ⟨_, createUser_strings (hvector.symm ▸ hs) hlen, rfl, rfl⟩
  obtain ⟨name', hcopy⟩ : ∃ name', copyChars call.name 100 0 name = .ok name' := by
    rw [hcallName]
    exact (copyName_iff name l.name).mpr (firstName_fits hws hs hss hmax hname)
  have hbuffer : backToBack ss <+: (call.allargs.rest 0).take (sizeArgBuff - 32) := by
    rw [hallargs]
    exact handed_starts hlen
  have hload : ∀ m < 100, call.allargs.load m = .ok ((backToBack ss)[m]?.getD 0) := by
    intro m hm
    rw [hallargs]
    exact handed_load _ _ hm
  have hfound : Found call.allargs 0 ss := by
    refine found_of_load ?_ ((Nat.zero_add _).trans_le hlen) ?_ hne (nonzero_of_strings hs)
    · intro m hm
      rw [Nat.zero_add, hload m (by omega), List.getElem?_eq_getElem hm]
      rfl
    · intro k hk hlt
      rw [hload k hlt, List.getElem?_eq_none (by omega)]
      rfl
  obtain ⟨started, hstart, hargs⟩ := startUser_startsWith mem dum hpage hcopy
    hbuffer hfound hss hmax (nonzero_of_strings hs)
  exact ⟨call, started, hcall, hstart, hargs⟩

/-- A process is created with the arguments `a` and `bc`. -/
theorem arguments_survive_two :
    ∃ (l : CreateArrays) (s' : Memory.Os) (call : ForkCall) (started : Started),
      trapProcessCreateUser (starting
        [0, 0, 0, 12, 0, 0, 0, 14, 0, 0, 0, 0, 97, 0, 98, 99, 0]) 0 l = .ok call ∧
      startUser (s'.pcbs Memory.pcbA) call (fun _ => 0) (fun _ => 0) (fun _ => 0) = .ok started ∧
      StartsWith (readUser (s'.pcbs Memory.pcbA) started.mem) started.sp [[97], [98, 99]] := by
  have hrun : (Memory.fivePages.bind fun s =>
      (Memory.processFork s Memory.pcbA (some 3)).toOption).isSome = true := by
    decide
  obtain ⟨⟨rv, s'⟩, hs⟩ := Option.isSome_iff_exists.mp hrun
  obtain ⟨s, -, hfork⟩ := Option.bind_eq_some_iff.mp hs
  have hok : Memory.processFork s Memory.pcbA (some 3) = .ok (rv, s') := by
    cases e : Memory.processFork s Memory.pcbA (some 3) with
    | error e' =>
        rw [e] at hfork
        cases hfork
    | ok r =>
        rw [e] at hfork
        exact congrArg Except.ok (Option.some.inj hfork)
  refine ⟨⟨fun _ => 7, fun _ => 7, fun _ => 7⟩, s', arguments_survive
    (starting [0, 0, 0, 12, 0, 0, 0, 14, 0, 0, 0, 0, 97, 0, 98, 99, 0]) 0 _ [12, 14]
    [[97], [98, 99]] ?_ (by simp) ?_ (by decide) (by decide) (by decide) (by decide) (by decide)
    s s' Memory.pcbA 3 rv (by decide) hok (fun _ => 0) (fun _ => 0) (fun _ => 0)⟩
  · exact ⟨rfl, rfl, rfl, rfl, rfl, rfl, rfl, rfl, rfl, rfl, rfl, rfl, trivial⟩
  · exact .cons ⟨by decide, rfl, rfl, trivial⟩ (.cons ⟨by decide, rfl, rfl, rfl, trivial⟩ .nil)

end DlxOs.Traps
