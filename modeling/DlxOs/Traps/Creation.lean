import DlxOs.Memory.Cursor
import DlxOs.Traps.HandedOn
import DlxOs.Traps.PrintedText

/-!
# What a new process gets

Process creation goes on to `ProcessFork` with a name and 992 characters. Unless
the fork leaves the simulator, what it does depends on what the stack held, except
when the name is mapped and its file is refused, or when the strings also fill the
characters that are handed on.
-/

namespace DlxOs.Traps

open Kernel (Halt PcbPtr ok_bind)

variable {σ : Type} {E : Env σ} {p : PcbPtr} {space : UserSpace} {trapArgs : Word} {s : Sys σ}

/-! ### What does not depend on the stack -/

/-- The strings stay inside the buffer, whatever it held. -/
def AlwaysFits (space : UserSpace) (trapArgs : Word) : Prop :=
  ∀ args allargs, Receives space trapArgs args →
    Fits space (argVector args 11 0) ((cleared allargs).rest 0)

/-- The name fits into a PCB, whatever its array held. -/
def NameFits (space : UserSpace) (trapArgs : Word) : Prop :=
  ∀ args name, Receives space trapArgs args → (nameOf space args name).length < 80

/-- This name is mapped, whatever the argument words that are not. -/
def NameMapped (space : UserSpace) (trapArgs : Word) (name : List Byte) : Prop :=
  ∀ args, Receives space trapArgs args → mappedString space 99 (programName args) = some name

/-- The 992 characters come from mapped memory or the cleared part of the buffer, the same ones for
all words that begin with the bytes that are mapped. -/
def ArgsMapped (space : UserSpace) (trapArgs : Word) : Prop :=
  ∃ bs, bs.length = sizeArgBuff - 32 ∧ ∀ args, Receives space trapArgs args →
    bs <+: knownText space (argVector args 11 0)

/-- Unless `ProcessFork` leaves the simulator, the name is mapped; and so are the characters if a
process is started. -/
def CreatesAlike (E : Env σ) (space : UserSpace) (trapArgs : Word) (s : Sys σ) : Prop :=
  AlwaysFits space trapArgs ∧ (s.kernel.list .freepcbs = [] ∨
    NameFits space trapArgs ∧ (¬ s.pages.freemap.TwoPages ∨
      ∃ name, NameMapped space trapArgs name ∧ E.HeaderRead s name ∧
        (E.Launches s name →
          Files.LinesEnd (E.disk.file (fileName name)) ∧ ArgsMapped space trapArgs)))

/-- The process that traps runs, and the kernel has its PCBs and its free pages in order. -/
structure Ready (p : PcbPtr) (s : Sys σ) : Prop where
  current : s.kernel.currentPCB = some p
  table : Kernel.Table s.kernel
  freemap : s.pages.freemap.Inside

/-- What a fork leaves is what the trap leaves. -/
def Outcome.forked (r : Option Entry × Sys σ) : Outcome σ :=
  { Outcome.unchanged r.2 with started := r.1 }

/-- What process creation does, once the strings fit. -/
theorem create_outcome (E : Env σ) (p : PcbPtr) (s : Sys σ) (hfits : AlwaysFits space trapArgs)
    (l : Leftovers) :
    ∃ call, HandsOn call (nameOf space (received space trapArgs l.create) l.create.name)
        (argsOf space (received space trapArgs l.create) l.create.allargs) ∧
      userTrap E p space trapArgs s l .processCreate =
        processFork E.toSimulator call l.fork s >>= fun r => .ok (.forked r) := by
  obtain ⟨call, e, h⟩ := create_ok (hfits _ l.create.allargs (received_receives l.create))
  refine ⟨call, h, ?_⟩
  unfold userTrap
  rw [e]
  rfl

theorem error_bind {α β : Type} (e : Halt) (f : α → Except Halt β) :
    (Except.error e : Except Halt α) >>= f = .error e := rfl

section Load

variable {pcb : PcbPtr} {o : Memory.Os} {name : List Byte} {call call' : ForkCall}

/-- Once it has its pages, the rest of `ProcessFork` is the same for what is handed on alike. -/
theorem loadUser_alike (ht : Taken s.kernel pcb) (hp : Memory.forkPages o pcb = .ok s.pages)
    (hread : E.HeaderRead s name) (hlines : E.Launches s name →
      Files.LinesEnd (E.disk.file (fileName name)) ∧
        (call.allargs.rest 0).take (sizeArgBuff - 32) =
          (call'.allargs.rest 0).take (sizeArgBuff - 32))
    (hname : StringAt call.name 0 name) (hname' : StringAt call'.name 0 name)
    (l l' : ForkArrays) : ∃ r, loadUser E.toSimulator pcb call l s = .ok r ∧
      loadUser E.toSimulator pcb call' l' s = .ok r := by
  by_cases hlaunch : E.Launches s name
  · obtain ⟨hend, hargs⟩ := hlines hlaunch
    obtain ⟨start, kernel, pages, files, mem, frame, hpage, hrun⟩ :=
      loadUser_started ht hp hread hlaunch hend
    obtain ⟨r, hr, -⟩ := startArguments_reads l.dum mem hpage rfl
    have hr' := (startArguments_congr l'.dum l.dum rfl hargs).symm.trans hr
    refine ⟨(some ⟨r.1, start⟩, ⟨kernel, pages, files, s.names, r.2⟩), ?_, ?_⟩
    · rw [hrun call l hname, hr, ok_bind]
    · rw [hrun call' l' hname', hr', ok_bind]
  · obtain ⟨s', -, hrun⟩ := loadUser_refused ht hp hread hlaunch
    exact ⟨_, hrun call l hname, hrun call' l' hname'⟩

end Load

theorem create_full (hT : Kernel.Table s.kernel) (hfree : s.kernel.list .freepcbs = [])
    (hfits : AlwaysFits space trapArgs) (l : Leftovers) :
    userTrap E p space trapArgs s l .processCreate =
      .error (.exitsim (s.kernel.console ++ ["FATAL error: no free processes!\n"])) := by
  obtain ⟨call, -, hrun⟩ := create_outcome E p s hfits l
  rw [hrun, processFork_full hT hfree, error_bind]

/-- With a free PCB, what the handler hands on comes to `ProcessFork` as it was modelled there. -/
theorem create_named {pcb : PcbPtr} {rest : List PcbPtr} (hT : Kernel.Table s.kernel)
    (hfree : s.kernel.list .freepcbs = pcb :: rest) (hfits : AlwaysFits space trapArgs) :
    ∃ K, Taken K pcb ∧ ∀ l : Leftovers, ∃ call name,
      name = nameOf space (received space trapArgs l.create) l.create.name ∧
      HandsOn call name (argsOf space (received space trapArgs l.create) l.create.allargs) ∧
      userTrap E p space trapArgs s l .processCreate =
        if name.length < 80 then
          Memory.forkPages s.pages pcb >>= fun pages =>
            loadUser E.toSimulator pcb call l.fork (s.named pcb name K pages) >>= fun r =>
              .ok (.forked r)
        else .error .wildAccess := by
  obtain ⟨K, htaken, hfork⟩ := processFork_named (E := E.toSimulator) hT hfree
  refine ⟨K, htaken, fun l => ?_⟩
  obtain ⟨call, hon, hrun⟩ := create_outcome E p s hfits l
  refine ⟨call, _, rfl, hon, ?_⟩
  rw [hrun, hfork _ _ _ hon.name]
  split_ifs with hshort
  · cases Memory.forkPages s.pages pcb with
    | error e => rfl
    | ok pages => rfl
  · rfl

theorem independent_of_createsAlike (ready : Ready p s) (h : CreatesAlike E space trapArgs s) :
    Independent E p space trapArgs s .processCreate := by
  obtain ⟨hfits, h⟩ := h
  suffices halike : ∀ l l', ∃ r, r ≠ .error .wildAccess ∧
      userTrap E p space trapArgs s l .processCreate = r ∧
      userTrap E p space trapArgs s l' .processCreate = r by
    intro l l'
    obtain ⟨r, hr, e, e'⟩ := halike l l'
    exact ⟨fun hwild => hr (e.symm.trans hwild), e.trans e'.symm⟩
  intro l l'
  by_cases hfree : s.kernel.list .freepcbs = []
  · exact ⟨_, (fun e => by cases e), create_full ready.table hfree hfits l,
      create_full ready.table hfree hfits l'⟩
  obtain ⟨hshort, h⟩ := h.resolve_left hfree
  obtain ⟨pcb, rest, hfree⟩ := List.exists_cons_of_ne_nil hfree
  obtain ⟨K, htaken, hall⟩ := create_named (E := E) (p := p) ready.table hfree hfits
  obtain ⟨call, name, hname, hon, hrun⟩ := hall l
  obtain ⟨call', name', hname', hon', hrun'⟩ := hall l'
  rw [if_pos (hname ▸ hshort _ l.create.name (received_receives l.create))] at hrun
  rw [if_pos (hname' ▸ hshort _ l'.create.name (received_receives l'.create))] at hrun'
  rw [hrun, hrun']
  by_cases hmany : s.pages.freemap.TwoPages
  · obtain ⟨pages, hpages⟩ := (Memory.forkPages_iff (p := pcb)).mpr hmany
    obtain ⟨u, hmapped, hread, hlines⟩ := h.resolve_left (not_not.mpr hmany)
    have hu : name = u :=
      hname.trans (nameOf_mapped l.create.name (hmapped _ (received_receives l.create)))
    have hu' : name' = u :=
      hname'.trans (nameOf_mapped l'.create.name (hmapped _ (received_receives l'.create)))
    rw [hu] at hon ⊢
    rw [hu'] at hon' ⊢
    have hstarts : E.Launches (s.named pcb u K pages) u →
        Files.LinesEnd (E.disk.file (fileName u)) ∧
          (call.allargs.rest 0).take (sizeArgBuff - 32) =
            (call'.allargs.rest 0).take (sizeArgBuff - 32) := by
      intro hlaunch
      obtain ⟨hend, bs, hblen, hknown⟩ := hlines hlaunch
      refine ⟨hend, ?_⟩
      rw [hon.args, hon'.args, argsOf_known _ hblen (hknown _ (received_receives _)),
        argsOf_known _ hblen (hknown _ (received_receives _))]
    obtain ⟨r, hr, hr'⟩ := loadUser_alike (E := E) (s := s.named pcb u K pages) htaken hpages hread
      hstarts hon.name hon'.name l.fork l'.fork
    rw [hpages, ok_bind, ok_bind, hr, hr', ok_bind]
    exact ⟨_, (fun e => by cases e), rfl, rfl⟩
  · -- the simulator is left before the name is used
    cases hpages : Memory.forkPages s.pages pcb with
    | ok pages => exact absurd (Memory.forkPages_iff.mp ⟨pages, hpages⟩) hmany
    | error e =>
      refine ⟨.error e, ?_, rfl, rfl⟩
      rintro ⟨⟩
      exact Memory.forkPages_inside ready.freemap hpages

/-- Leftovers with these arrays of process creation. -/
def createWith (args : Chars (4 * maxArgs)) (name : Chars 100) (allargs : Chars sizeArgBuff) :
    Leftovers :=
  { Leftovers.zero with create := { args := args, name := name, allargs := allargs } }

theorem received_createWith {args : Chars (4 * maxArgs)} (name : Chars 100)
    (allargs : Chars sizeArgBuff) (h : Receives space trapArgs args) :
    received space trapArgs (createWith args name allargs).create = args :=
  received_of_receives (l := (createWith args name allargs).create) h

theorem alwaysFits_of_independent (h : Independent E p space trapArgs s .processCreate) :
    AlwaysFits space trapArgs := by
  intro args allargs hargs
  let l := createWith args (fun _ => 0) allargs
  by_contra hfits
  rw [← received_createWith (fun _ => 0) allargs hargs] at hfits
  have hcopy : copyArgs space (received space trapArgs l.create) 11 0 0
      (cleared l.create.allargs) = .error .wildAccess := copyArgs_error (by decide) hfits
  apply (h l l).1
  unfold userTrap
  rw [trapProcessCreateUser_eq, hcopy]
  rfl

section Necessary

variable {args args' : Chars (4 * maxArgs)} {pcb : PcbPtr} {rest : List PcbPtr}
  {K : Kernel.KState} {pages : Memory.Os}

theorem createWith_outcome (hT : Kernel.Table s.kernel)
    (hfree : s.kernel.list .freepcbs = pcb :: rest) (hfits : AlwaysFits space trapArgs) :
    ∃ K, Taken K pcb ∧ ∀ args name allargs, Receives space trapArgs args →
      ∃ call, HandsOn call (nameOf space args name) (argsOf space args allargs) ∧
        userTrap E p space trapArgs s (createWith args name allargs) .processCreate =
          if (nameOf space args name).length < 80 then
            Memory.forkPages s.pages pcb >>= fun pages =>
              loadUser E.toSimulator pcb call (createWith args name allargs).fork
                (s.named pcb (nameOf space args name) K pages) >>= fun r => .ok (.forked r)
          else .error .wildAccess := by
  obtain ⟨K, htaken, hall⟩ := create_named (E := E) (p := p) hT hfree hfits
  refine ⟨K, htaken, fun args name allargs hargs => ?_⟩
  obtain ⟨call, u, hu, hon, hrun⟩ := hall (createWith args name allargs)
  rw [received_createWith name allargs hargs] at hu hon
  obtain rfl : u = nameOf space args name := hu
  exact ⟨call, hon, hrun⟩

/-- How the trap goes on when the fork has its PCB, named `u`, and its pages. -/
def Loads (E : Env σ) (p : PcbPtr) (space : UserSpace) (trapArgs : Word) (s : Sys σ) (pcb : PcbPtr)
    (K : Kernel.KState) (pages : Memory.Os) : Prop :=
  ∀ args name allargs, Receives space trapArgs args → ∃ call l,
    HandsOn call (nameOf space args name) (argsOf space args allargs) ∧
      userTrap E p space trapArgs s (createWith args name allargs) .processCreate =
        loadUser E.toSimulator pcb call l (s.named pcb (nameOf space args name) K pages) >>=
          fun r => .ok (.forked r)

namespace Loads

variable (hload : Loads E p space trapArgs s pcb K pages) (htaken : Taken K pcb)
  (hpages : Memory.forkPages s.pages pcb = .ok pages)
  (h : Independent E p space trapArgs s .processCreate)

include hload h in
/-- The file is not read over a buffer. -/
theorem inside (name : Chars 100) (hargs : Receives space trapArgs args) : ∃ call l,
    StringAt call.name 0 (nameOf space args name) ∧
      loadUser E.toSimulator pcb call l (s.named pcb (nameOf space args name) K pages) ≠
        .error .wildAccess := by
  obtain ⟨call, l, hon, hrun⟩ := hload args name (fun _ => 0) hargs
  refine ⟨call, l, hon.name, fun hwild => ?_⟩
  rw [hwild] at hrun
  exact (h _ (createWith args name fun _ => 0)).1 hrun

include hload h in
theorem headerRead (name : Chars 100) (hargs : Receives space trapArgs args) :
    E.HeaderRead s (nameOf space args name) := by
  obtain ⟨call, l, hname, hin⟩ := inside hload h name hargs
  by_contra hread
  exact hin (loadUser_wild hread hname)

include hload hpages h in
theorem linesEnd (name : Chars 100) (hargs : Receives space trapArgs args)
    (hlaunch : E.Launches s (nameOf space args name)) :
    Files.LinesEnd (E.disk.file (fileName (nameOf space args name))) := by
  obtain ⟨call, l, hname, hin⟩ := inside hload h name hargs
  by_contra hlines
  exact hin (loadUser_lines hpages (headerRead hload h name hargs) hlaunch hlines hname)

include hload htaken hpages h in
/-- The PCB keeps the name, also of a file that is refused. -/
theorem named (name : Chars 100) (allargs : Chars sizeArgBuff)
    (hargs : Receives space trapArgs args) : ∃ o,
      userTrap E p space trapArgs s (createWith args name allargs) .processCreate = .ok o ∧
      o.sys.names pcb = place (s.names pcb) 0 (nameOf space args name ++ [0]) := by
  obtain ⟨call, l, hon, hrun⟩ := hload args name allargs hargs
  obtain ⟨r, hr, -⟩ := loadUser_alike (E := E) (s := s.named pcb (nameOf space args name) K pages)
    htaken hpages (headerRead hload h name hargs)
    (fun hlaunch => ⟨linesEnd hload hpages h name hargs hlaunch, rfl⟩) hon.name hon.name l l
  rw [hr] at hrun
  refine ⟨_, hrun, ?_⟩
  change r.2.names pcb = _
  rw [loadUser_names hr]
  exact Function.update_self ..

include hload htaken hpages h in
theorem sameName (hfits : NameFits space trapArgs) (name name' : Chars 100)
    (hargs : Receives space trapArgs args) (hargs' : Receives space trapArgs args') :
    nameOf space args name = nameOf space args' name' := by
  obtain ⟨o, ho, hname⟩ := named hload htaken hpages h name (fun _ => 0) hargs
  obtain ⟨o', ho', hname'⟩ := named hload htaken hpages h name' (fun _ => 0) hargs'
  have hsame := (h (createWith args name fun _ => 0) (createWith args' name' fun _ => 0)).2
  rw [ho, ho'] at hsame
  rw [Except.ok.inj hsame, hname'] at hname
  have hstring : ∀ {args : Chars (4 * maxArgs)} (name : Chars 100),
      Receives space trapArgs args →
        StringAt (place (s.names pcb) 0 (nameOf space args name ++ [0])) 0
          (nameOf space args name) := by
    intro args name hargs
    have hlen := hfits args name hargs
    exact stringAt_place (stringAt_fetched (n := 100) (by decide)).nonzero (by omega)
      List.prefix_rfl
  exact (hname ▸ hstring name hargs).unique (hstring name' hargs')

include hload htaken hpages h in
/-- A process that is started shows the characters. -/
theorem argsMapped (name : Chars 100) (hargs : Receives space trapArgs args)
    (hsame : ∀ {args'}, Receives space trapArgs args' →
      nameOf space args' name = nameOf space args name)
    (hlaunch : E.Launches s (nameOf space args name)) : ArgsMapped space trapArgs := by
  obtain ⟨start, kernel, pages', files, mem, frame, hpage, hstart⟩ :=
    loadUser_started (E := E.toSimulator) (s := s.named pcb (nameOf space args name) K pages)
      htaken hpages (headerRead hload h name hargs) hlaunch
      (linesEnd hload hpages h name hargs hlaunch)
  have hreads : ∀ {args' bs} allargs, Receives space trapArgs args' →
      argsOf space args' allargs = bs → ∃ o,
        userTrap E p space trapArgs s (createWith args' name allargs) .processCreate = .ok o ∧
          Reads (readUser (pages'.pcbs pcb) o.sys.mem) argBase bs := by
    intro args' bs allargs hargs' hbs
    obtain ⟨call, l, hon, hrun⟩ := hload args' name allargs hargs'
    rw [hsame hargs', hbs] at hon
    rw [hsame hargs'] at hrun
    obtain ⟨r, hr, hat⟩ := startArguments_reads l.dum mem hpage hon.args
    rw [hstart call l hon.name, hr, ok_bind, ok_bind] at hrun
    exact ⟨_, hrun, hat⟩
  refine ⟨argsOf space args fun _ => 0, length_argsOf, fun args' hargs' => ?_⟩
  apply knownText_of_same
  · rw [length_argsOf]
    exact Nat.sub_le ..
  · rw [length_argsOf]
    decide
  · intro allargs
    obtain ⟨bs, hbs⟩ : ∃ bs, argsOf space args (fun _ => 0) = bs := ⟨_, rfl⟩
    obtain ⟨bs', hbs'⟩ : ∃ bs', argsOf space args' allargs = bs' := ⟨_, rfl⟩
    obtain ⟨o, ho, hat⟩ := hreads (fun _ => 0) hargs hbs
    obtain ⟨o', ho', hat'⟩ := hreads allargs hargs' hbs'
    have halike := (h (createWith args name fun _ => 0) (createWith args' name allargs)).2
    rw [ho, ho'] at halike
    rw [Except.ok.inj halike] at hat
    have hlength : bs.length = bs'.length := by rw [← hbs, ← hbs', length_argsOf, length_argsOf]
    rw [hbs, hat.unique hat' hlength, ← hbs']
    exact List.take_prefix ..

end Loads

theorem createsAlike_of_independent (ready : Ready p s)
    (h : Independent E p space trapArgs s .processCreate) : CreatesAlike E space trapArgs s := by
  have hfits := alwaysFits_of_independent h
  refine ⟨hfits, ?_⟩
  by_cases hfree : s.kernel.list .freepcbs = []
  · exact Or.inl hfree
  obtain ⟨pcb, rest, hfree⟩ := List.exists_cons_of_ne_nil hfree
  obtain ⟨K, htaken, hall⟩ := createWith_outcome (E := E) (p := p) ready.table hfree hfits
  have hshort : NameFits space trapArgs := by
    intro args name hargs
    obtain ⟨call, -, hrun⟩ := hall args name (fun _ => 0) hargs
    by_contra hlong
    rw [if_neg hlong] at hrun
    exact (h _ (createWith args name fun _ => 0)).1 hrun
  refine Or.inr ⟨hshort, ?_⟩
  by_cases hmany : s.pages.freemap.TwoPages
  · obtain ⟨pages, hpages⟩ := (Memory.forkPages_iff (p := pcb)).mpr hmany
    have hload : Loads E p space trapArgs s pcb K pages := by
      intro args name allargs hargs
      obtain ⟨call, hon, hrun⟩ := hall args name allargs hargs
      rw [if_pos (hshort args name hargs), hpages, ok_bind] at hrun
      exact ⟨call, _, hon, hrun⟩
    obtain ⟨args, hargs⟩ : ∃ args, Receives space trapArgs args :=
      ⟨_, received_receives ⟨fun _ => 0, fun _ => 0, fun _ => 0⟩⟩
    have hsame : ∀ {args'} name', Receives space trapArgs args' →
        nameOf space args' name' = nameOf space args fun _ => 0 :=
      fun name' hargs' => hload.sameName htaken hpages h hshort name' _ hargs' hargs
    refine Or.inr
      ⟨nameOf space args fun _ => 0, fun args' hargs' => ?_, ?_, fun hlaunch => ⟨?_, ?_⟩⟩
    · exact mapped_of_same fun name' => hsame name' hargs'
    · exact hload.headerRead h _ hargs
    · exact hload.linesEnd hpages h _ hargs hlaunch
    · exact hload.argsMapped htaken hpages h _ hargs (fun hargs' => hsame _ hargs') hlaunch
  · exact Or.inl hmany

end Necessary

theorem processCreate_independent_iff (ready : Ready p s) :
    Independent E p space trapArgs s .processCreate ↔ CreatesAlike E space trapArgs s :=
  ⟨createsAlike_of_independent ready, independent_of_createsAlike ready⟩

end DlxOs.Traps
