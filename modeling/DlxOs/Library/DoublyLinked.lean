import Mathlib.Data.List.Basic
import Mathlib.Logic.Function.Basic
import Mathlib.Tactic.Common

/-!
# Doubly linked lists over two pointer tables

The tables `nxt` and `prv` give the successor and the predecessor of each
cell. `Segment nxt prv p cells n` says that `cells` are chained in this order,
that the first one points back to `p` and that the last one points on to `n`.
Removing a cell and inserting one are each two guarded assignments around it.
-/

namespace DlxOs.DoublyLinked

variable {α : Type*}

/-- A chain of cells entered from `p` and left towards `n`. -/
def Segment (nxt prv : α → Option α) : Option α → List α → Option α → Prop
  | _, [], _ => True
  | p, a :: rest, n => prv a = p ∧ nxt a = rest.head?.or n ∧ Segment nxt prv (some a) rest n

@[simp] theorem segment_nil (nxt prv : α → Option α) (p n : Option α) :
    Segment nxt prv p [] n := trivial

theorem segment_cons {nxt prv : α → Option α} {p n : Option α} {a : α} {rest : List α} :
    Segment nxt prv p (a :: rest) n ↔
      prv a = p ∧ nxt a = rest.head?.or n ∧ Segment nxt prv (some a) rest n := Iff.rfl

theorem segment_append {nxt prv : α → Option α} {p n : Option α} {xs ys : List α} :
    Segment nxt prv p (xs ++ ys) n ↔
      Segment nxt prv p xs (ys.head?.or n) ∧ Segment nxt prv (xs.getLast?.or p) ys n := by
  induction xs generalizing p with
  | nil => simp
  | cons a rest ih =>
      have hlast : (a :: rest).getLast?.or p = rest.getLast?.or (some a) := by
        cases rest with
        | nil => simp
        | cons b more => simp [List.getLast?_cons]
      simp only [List.cons_append, segment_cons, ih, hlast, List.head?_append, Option.or_assoc,
        and_assoc]

/-- Only the cells of the chain matter. -/
theorem Segment.congr {nxt prv nxt' prv' : α → Option α} {p n : Option α} {cells : List α}
    (h : Segment nxt prv p cells n) (hn : ∀ a ∈ cells, nxt' a = nxt a)
    (hp : ∀ a ∈ cells, prv' a = prv a) : Segment nxt' prv' p cells n := by
  induction cells generalizing p with
  | nil => trivial
  | cons a rest ih =>
      obtain ⟨h₁, h₂, h₃⟩ := h
      exact ⟨(hp a (by simp)).trans h₁, (hn a (by simp)).trans h₂,
        ih h₃ (fun b hb => hn b (by simp [hb])) fun b hb => hp b (by simp [hb])⟩

/-- Inside a chain the predecessor table gives the cell before. -/
theorem Segment.prv_eq {nxt prv : α → Option α} {xs ys : List α} {l : α}
    (h : Segment nxt prv none (xs ++ l :: ys) none) : prv l = xs.getLast? := by
  rw [segment_append] at h
  simpa using h.2.1

/-- Inside a chain the successor table gives the cell behind. -/
theorem Segment.nxt_eq {nxt prv : α → Option α} {xs ys : List α} {l : α}
    (h : Segment nxt prv none (xs ++ l :: ys) none) : nxt l = ys.head? := by
  rw [segment_append] at h
  simpa using h.2.2.1

/-- The cells met by following `nxt` for at most `fuel` steps. -/
def walk (nxt : α → Option α) : Nat → Option α → List α
  | 0, _ => []
  | _, none => []
  | fuel + 1, some a => a :: walk nxt fuel (nxt a)

/-- Following the successor table through a whole chain lists its cells. -/
theorem Segment.walk_eq {nxt prv : α → Option α} {p : Option α} {cells : List α}
    (h : Segment nxt prv p cells none) : walk nxt cells.length cells.head? = cells := by
  induction cells generalizing p with
  | nil => rfl
  | cons a rest ih =>
      obtain ⟨-, h₂, h₃⟩ := h
      have hn : nxt a = rest.head? := by simpa using h₂
      simp only [List.length_cons, List.head?_cons, walk, hn, ih h₃]

variable [DecidableEq α]

/-- The guarded assignment `if (o) table[o] = v`. -/
def assign (table : α → Option α) (o v : Option α) : α → Option α :=
  match o with
  | none => table
  | some a => Function.update table a v

@[simp] theorem assign_none (table : α → Option α) (v : Option α) :
    assign table none v = table := rfl

theorem assign_some (table : α → Option α) (a : α) (v : Option α) :
    assign table (some a) v = Function.update table a v := rfl

theorem assign_of_ne {table : α → Option α} {o v : Option α} {b : α} (h : o ≠ some b) :
    assign table o v b = table b := by
  cases o with
  | none => rfl
  | some a => exact Function.update_of_ne (fun e => h (by rw [e])) _ _

@[simp] theorem assign_same (table : α → Option α) (a : α) (v : Option α) :
    assign table (some a) v a = v := Function.update_self ..

/-- Assigning the successor of the last cell redirects the end of the chain. -/
theorem Segment.assign_last {nxt prv : α → Option α} {p n : Option α} {cells : List α}
    (h : Segment nxt prv p cells n) (hd : cells.Nodup) (m : Option α) :
    Segment (assign nxt cells.getLast? m) prv p cells m := by
  rcases List.eq_nil_or_concat cells with rfl | ⟨init, a, rfl⟩
  · trivial
  · rw [List.concat_eq_append] at *
    have ha : a ∉ init := fun hm => (List.nodup_append.mp hd).2.2 a hm a (by simp) rfl
    rw [segment_append] at h ⊢
    refine ⟨h.1.congr (fun b hb => ?_) fun b _ => rfl, ?_⟩
    · exact assign_of_ne fun e => ha (by simp at e; exact e ▸ hb)
    · exact ⟨h.2.1, by simp, trivial⟩

/-- Assigning the predecessor of the first cell redirects the entry of the chain. -/
theorem Segment.assign_head {nxt prv : α → Option α} {p n : Option α} {cells : List α}
    (h : Segment nxt prv p cells n) (hd : cells.Nodup) (m : Option α) :
    Segment nxt (assign prv cells.head? m) m cells n := by
  cases cells with
  | nil => trivial
  | cons a rest =>
      have ha : a ∉ rest := (List.nodup_cons.mp hd).1
      refine ⟨by simp, h.2.1, h.2.2.congr (fun _ _ => rfl) fun b hb => ?_⟩
      exact assign_of_ne fun e => ha (by simp at e; exact e ▸ hb)

/-- Unlinking a cell joins its two neighbours. -/
theorem Segment.unlink {nxt prv : α → Option α} {xs ys : List α} {l : α}
    (h : Segment nxt prv none (xs ++ l :: ys) none) (hd : (xs ++ l :: ys).Nodup) :
    Segment (assign nxt xs.getLast? ys.head?) (assign prv ys.head? xs.getLast?) none
      (xs ++ ys) none := by
  obtain ⟨hxs, hlys, hdis⟩ := List.nodup_append.mp hd
  have hys : ys.Nodup := (List.nodup_cons.mp hlys).2
  rw [segment_append] at h
  obtain ⟨h₁, -, -, h₂⟩ := h
  rw [segment_append]
  refine ⟨?_, ?_⟩
  · refine ((h₁.assign_last hxs (ys.head?.or none)).congr (fun a _ => ?_) fun a ha => ?_)
    · simp
    · refine assign_of_ne fun e => ?_
      exact hdis a ha a (by simp [List.mem_of_mem_head? e]) rfl
  · refine ((h₂.assign_head hys (xs.getLast?.or none)).congr (fun a ha => ?_) fun a _ => ?_)
    · refine assign_of_ne fun e => ?_
      exact hdis a (List.mem_of_mem_getLast? e) a (by simp [ha]) rfl
    · simp

/-- Linking a fresh cell between two parts of a chain. -/
theorem Segment.link {nxt prv : α → Option α} {xs ys : List α} {l : α}
    (h : Segment nxt prv none (xs ++ ys) none) (hd : (xs ++ l :: ys).Nodup) :
    Segment (assign (Function.update nxt l ys.head?) xs.getLast? (some l))
      (assign (Function.update prv l xs.getLast?) ys.head? (some l)) none
      (xs ++ l :: ys) none := by
  obtain ⟨hxs, hlys, hdis⟩ := List.nodup_append.mp hd
  obtain ⟨hl, hys⟩ := List.nodup_cons.mp hlys
  have hlx : l ∉ xs := fun hm => hdis l hm l (by simp) rfl
  rw [segment_append] at h
  rw [segment_append, segment_cons]
  refine ⟨?_, ?_, ?_, ?_⟩
  · refine ((h.1.assign_last hxs (some l)).congr (fun a ha => ?_) fun a ha => ?_)
    · by_cases e : xs.getLast? = some a
      · rw [e]; simp
      · rw [assign_of_ne e, assign_of_ne e, Function.update_of_ne (ne_of_mem_of_not_mem ha hlx)]
    · rw [assign_of_ne fun e => hdis a ha a (by simp [List.mem_of_mem_head? e]) rfl,
        Function.update_of_ne (ne_of_mem_of_not_mem ha hlx)]
  · rw [assign_of_ne fun e => hl (List.mem_of_mem_head? e)]
    simp
  · rw [assign_of_ne fun e => hlx (List.mem_of_mem_getLast? e)]
    simp
  · refine ((h.2.assign_head hys (some l)).congr (fun a ha => ?_) fun a ha => ?_)
    · rw [assign_of_ne fun e => hdis a (List.mem_of_mem_getLast? e) a (by simp [ha]) rfl,
        Function.update_of_ne (ne_of_mem_of_not_mem ha hl)]
    · by_cases e : ys.head? = some a
      · rw [e]; simp
      · rw [assign_of_ne e, assign_of_ne e, Function.update_of_ne (ne_of_mem_of_not_mem ha hl)]

/-- A chain that leaves a cell alone survives a change of that cell's pointers. -/
theorem Segment.frame {nxt prv : α → Option α} {p n : Option α} {cells : List α}
    (h : Segment nxt prv p cells n) {a b : Option α} (va vb : Option α)
    (ha : ∀ c ∈ cells, a ≠ some c) (hb : ∀ c ∈ cells, b ≠ some c) :
    Segment (assign nxt a va) (assign prv b vb) p cells n :=
  h.congr (fun c hc => assign_of_ne (ha c hc)) fun c hc => assign_of_ne (hb c hc)

end DlxOs.DoublyLinked
