import DlxOs.Library.Threads

/-!
# Loops of calls

A process makes the calls of a list in turn, a number of times, and one more
call at its end. How often it has made a call can be read off its place.
-/

namespace DlxOs.Monitors

variable {κ : Type*} {total : ℕ} {body : List κ}

/-- A place in a loop: `left` rounds are to come after this one, and this one goes on with `c` and
then `rest`. -/
inductive Loop (total : ℕ) (body : List κ)
  | round (left : ℕ) (c : κ) (rest : List κ) (hleft : left < total) (hrest : c :: rest <:+ body)
  | last
  | finished

namespace Loop

/-- The test at the head of the loop. -/
def enter (total : ℕ) (body : List κ) : (left : ℕ) → left ≤ total → Loop total body
  | 0, _ => .last
  | left + 1, h =>
    match hb : body with
    | [] => .last
    | c :: rest => .round left c rest h (hb ▸ List.suffix_rfl)

def start (total : ℕ) (body : List κ) : Loop total body := enter total body total le_rfl

/-- After a call of the body. -/
def goOn (left : ℕ) (hleft : left < total) :
    (rest : List κ) → rest <:+ body → Loop total body
  | [], _ => enter total body left hleft.le
  | c :: rest, h => .round left c rest hleft h

/-- The call at the end of the loop has been made. -/
def ended : Loop total body → Bool
  | .finished => true
  | _ => false

theorem ended_iff {l : Loop total body} : l.ended = true ↔ l = .finished := by
  cases l <;> simp [ended]

theorem ended_enter (left : ℕ) (h : left ≤ total) : (enter total body left h).ended = false := by
  cases left with
  | zero => rfl
  | succ left => cases body <;> rfl

theorem ended_goOn {left : ℕ} (hleft : left < total) {rest : List κ} (hrest : rest <:+ body) :
    (goOn left hleft rest hrest).ended = false := by
  cases rest with
  | nil => exact ended_enter ..
  | cons c rest => rfl

/-- The calls that are still to come. -/
def remaining : Loop total body → ℕ
  | .round left _ rest _ _ => left * body.length + rest.length + 2
  | .last => 1
  | .finished => 0

theorem remaining_enter (left : ℕ) (h : left ≤ total) :
    (enter total body left h).remaining = left * body.length + 1 := by
  cases left with
  | zero => rw [enter, remaining, Nat.zero_mul]
  | succ left =>
      cases body with
      | nil => rfl
      | cons c rest =>
          rw [enter, remaining, List.length_cons, Nat.succ_mul]
          omega

/-- After a call one call less is to come. -/
theorem remaining_goOn {left : ℕ} (hleft : left < total) {rest : List κ} (hrest : rest <:+ body) :
    (goOn left hleft rest hrest).remaining = left * body.length + rest.length + 1 := by
  cases rest with
  | nil => exact remaining_enter ..
  | cons c rest => rfl

section Made

variable [DecidableEq κ]

/-- How often the call has been made. -/
def made (d : κ) : Loop total body → ℕ
  | .round left c rest _ _ => (total - 1 - left) * body.count d + (body.count d - (c :: rest).count d)
  | .last => total * body.count d
  | .finished => total * body.count d

theorem made_enter (d : κ) (left : ℕ) (h : left ≤ total) :
    (enter total body left h).made d = (total - left) * body.count d := by
  cases left with
  | zero => rfl
  | succ left =>
      cases body with
      | nil => simp [enter, made]
      | cons c rest =>
          simp only [enter, made, Nat.sub_self, Nat.add_zero]
          rw [Nat.sub_sub, Nat.add_comm 1]

theorem made_start (d : κ) : (start total body).made d = 0 := by
  rw [start, made_enter, Nat.sub_self, Nat.zero_mul]

/-- Going on counts the call that was made. -/
theorem made_goOn (d : κ) {left : ℕ} {c : κ} {rest : List κ} (hleft : left < total)
    (hrest : c :: rest <:+ body) :
    (goOn left hleft rest ((List.suffix_cons c rest).trans hrest)).made d =
      (Loop.round left c rest hleft hrest).made d + (if c = d then 1 else 0) := by
  have hc : (c :: rest).count d = rest.count d + if c = d then 1 else 0 := by
    simp [List.count_cons]
  have hle : (c :: rest).count d ≤ body.count d := hrest.sublist.count_le d
  cases rest with
  | nil =>
      obtain ⟨k, hk⟩ := Nat.exists_eq_add_of_lt hleft
      rw [goOn, made_enter, made, show total - 1 - left = k by omega,
        show total - left = k + 1 by omega, Nat.add_mul, Nat.one_mul]
      rw [List.count_nil] at hc
      omega
  | cons c' rest =>
      simp only [goOn, made]
      omega

/-- A loop never makes a call more often than its rounds provide for. -/
theorem made_le (d : κ) (l : Loop total body) : l.made d ≤ total * body.count d := by
  cases l with
  | round left c rest hleft hrest =>
      obtain ⟨k, hk⟩ := Nat.exists_eq_add_of_lt hleft
      rw [made, show total - 1 - left = k by omega]
      calc k * body.count d + (body.count d - (c :: rest).count d)
          ≤ k * body.count d + body.count d := Nat.add_le_add_left (Nat.sub_le ..) _
        _ = (k + 1) * body.count d := (Nat.succ_mul ..).symm
        _ ≤ total * body.count d := Nat.mul_le_mul_right _ (by omega)
  | last => exact le_rfl
  | finished => exact le_rfl

/-- Before a call there is one more to make. -/
theorem made_lt {left : ℕ} {c : κ} {rest : List κ} (hleft : left < total)
    (hrest : c :: rest <:+ body) :
    (Loop.round left c rest hleft hrest).made c < total * body.count c := by
  have := made_goOn c hleft hrest
  rw [if_pos rfl] at this
  have := made_le c (goOn left hleft rest ((List.suffix_cons c rest).trans hrest))
  omega

end Made

end Loop

end DlxOs.Monitors
