import DlxOs.Memory.LifeCycle

/-!
# The cursor of the allocator

`MemoryAllocPage` goes on searching where it has found the last page. In every
run the search stays inside the bit map, also after a page was freed twice.
-/

namespace DlxOs.Memory

open Kernel (Halt PcbPtr ok_bind ok_bind_inv)
open Transition

variable {m m' : Freemap} {s s' : Os} {p : PcbPtr} {page fuel mapnum : ℕ}

structure Freemap.Inside (m : Freemap) : Prop where
  cursor : m.mapnum < memoryMaxPages / 32
  words : m.freemapmax ≤ (memoryMaxPages / 32 : ℕ)

theorem Freemap.Sound.inside {lo hi : ℕ} (h : m.Sound lo hi) : m.Inside := by
  have hwords := h.words
  refine ⟨?_, hwords⟩
  rcases h.cursor with hc | hc
  · rw [hc]
    decide
  · omega

/-! ### Allocation -/

theorem nextMap_inside {f : Fin (memoryMaxPages / 32) → BitVec 32} {size : ℤ}
    (hcursor : mapnum < memoryMaxPages / 32) (hsize : size ≤ (memoryMaxPages / 32 : ℕ)) :
    nextMap f size fuel mapnum ≠ .error .wildAccess := by
  induction fuel generalizing mapnum with
  | zero => exact fun e => by cases e
  | succ fuel ih =>
      unfold nextMap
      rw [dif_pos hcursor]
      split
      · apply ih
        split
        · decide
        · omega
      · exact fun e => by cases e

namespace Freemap.Inside

theorem allocPage (h : m.Inside) : memoryAllocPage m ≠ .error .wildAccess := by
  unfold memoryAllocPage
  split
  · exact fun e => by cases e
  · cases hn : nextMap m.freepages m.freemapmax (memoryMaxPages / 32) m.mapnum with
    | error e =>
        intro hwild
        obtain rfl : e = .wildAccess := Except.error.inj hwild
        exact nextMap_inside h.cursor h.words hn
    | ok i =>
        simp only [ok_bind]
        split
        · exact fun e => by cases e
        · exact fun e => by cases e

theorem alloc (h : m.Inside) (e : memoryAllocPage m = .ok (page, m')) : m'.Inside := by
  unfold memoryAllocPage at e
  split at e
  · obtain rfl := (Prod.mk.inj (Except.ok.inj e)).2
    exact h
  · obtain ⟨i, -, e⟩ := ok_bind_inv e
    simp only at e
    split at e
    · cases e
    · obtain rfl := (Prod.mk.inj (Except.ok.inj e)).2
      exact ⟨i.isLt, h.words⟩

theorem free (h : m.Inside) (e : memoryFreePage m page = .ok m') : m'.Inside := by
  obtain ⟨m₁, e₁, e⟩ := ok_bind_inv e
  obtain rfl := Except.ok.inj e
  unfold memorySetFreemap at e₁
  simp only at e₁
  split at e₁
  · obtain rfl := Except.ok.inj e₁
    exact ⟨h.cursor, h.words⟩
  · cases e₁

end Freemap.Inside

/-- A fork that gets no pages leaves the simulator, or searches for ever. -/
theorem forkPages_inside (h : s.freemap.Inside) : forkPages s p ≠ .error .wildAccess := by
  rw [forkPages_eq]
  cases hm₁ : memoryAllocPage s.freemap with
  | error e =>
      intro hwild
      obtain rfl : e = .wildAccess := Except.error.inj hwild
      exact h.allocPage hm₁
  | ok r =>
      rw [ok_bind]
      split
      · exact fun e => by cases e
      · cases hm₂ : memoryAllocPage r.2 with
        | error e =>
            intro hwild
            obtain rfl : e = .wildAccess := Except.error.inj hwild
            exact (h.alloc hm₁).allocPage hm₂
        | ok r' =>
            rw [ok_bind]
            split
            · exact fun e => by cases e
            · exact fun e => by cases e

/-! ### The calls -/

section Calls

theorem freePage_inside (h : s.freemap.Inside) (e : s.freePage page = .ok s') :
    s'.freemap.Inside := by
  obtain ⟨m, em, e⟩ := ok_bind_inv e
  obtain rfl := Except.ok.inj e
  exact h.free em

theorem appendPte_inside {pte : BitVec 32} (h : s.freemap.Inside)
    (e : s.appendPte p pte = .ok s') : s'.freemap.Inside := by
  unfold Os.appendPte at e
  simp only at e
  split at e
  · obtain rfl := Except.ok.inj e
    exact h
  · cases e

theorem freeSharedPte_inside {n : ℕ} {r : ℤ} (h : s.freemap.Inside)
    (e : memoryFreeSharedPte s p n = .ok (r, s')) : s'.freemap.Inside := by
  unfold memoryFreeSharedPte at e
  obtain ⟨pte, -, e⟩ := ok_bind_inv e
  simp only at e
  split at e
  · cases e
  · split at e
    · obtain rfl := (Prod.mk.inj (Except.ok.inj e)).2
      exact h
    · split at e
      · obtain ⟨t, et, e⟩ := ok_bind_inv e
        obtain rfl := (Prod.mk.inj (Except.ok.inj e)).2
        have ht : t.freemap.Inside := by
          apply freePage_inside _ et
          exact h
        exact ht
      · obtain rfl := (Prod.mk.inj (Except.ok.inj e)).2
        exact h

theorem freeSharedPtes_inside {rounds n : ℕ} (h : s.freemap.Inside)
    (e : freeSharedPtes p rounds n s = .ok s') : s'.freemap.Inside := by
  induction rounds generalizing n s with
  | zero =>
      obtain rfl := Except.ok.inj e
      exact h
  | succ rounds ih =>
      obtain ⟨⟨r, t⟩, et, e⟩ := ok_bind_inv e
      exact ih (freeSharedPte_inside h et) e

theorem freePtes_inside {rounds n : ℕ} (h : s.freemap.Inside)
    (e : freePtes p rounds n s = .ok s') : s'.freemap.Inside := by
  induction rounds generalizing n s with
  | zero =>
      obtain rfl := Except.ok.inj e
      exact h
  | succ rounds ih =>
      obtain ⟨pte, -, e⟩ := ok_bind_inv e
      obtain ⟨t, et, e⟩ := ok_bind_inv e
      exact ih (freePage_inside h et) e

theorem freeResources_inside (h : s.freemap.Inside) (e : processFreeResources s p = .ok s') :
    s'.freemap.Inside := by
  obtain ⟨t, et, e⟩ := ok_bind_inv e
  obtain ⟨u, eu, e⟩ := ok_bind_inv e
  obtain ⟨v, ev, e⟩ := ok_bind_inv e
  obtain rfl := Except.ok.inj e
  have ht := freeSharedPtes_inside (s := s.setFlags p _) h et
  have hv : v.freemap.Inside := freePage_inside (freePtes_inside ht eu) ev
  exact hv

theorem processFork_inside {fd : Option ℤ} {rv : ℤ} (h : s.freemap.Inside)
    (e : processFork s p fd = .ok (rv, s')) : s'.freemap.Inside := by
  obtain ⟨t, et, e⟩ := ok_bind_inv e
  obtain ⟨page, stack, m₁, m₂, hm₁, -, hm₂, -, rfl⟩ := forkPages_inv et
  have ht : (s.took p page stack m₂).freemap.Inside := (h.alloc hm₁).alloc hm₂
  unfold forkEnd at e
  split at e
  · obtain rfl := (Prod.mk.inj (Except.ok.inj e)).2
    exact ht
  · split at e
    · obtain ⟨u, eu, e⟩ := ok_bind_inv e
      obtain rfl := (Prod.mk.inj (Except.ok.inj e)).2
      exact freeResources_inside ht eu
    · obtain rfl := (Prod.mk.inj (Except.ok.inj e)).2
      exact ht

theorem createShared_inside (h : s.freemap.Inside)
    (e : memoryCreateSharedPage s p = .ok (page, s')) : s'.freemap.Inside := by
  unfold memoryCreateSharedPage at e
  split at e
  · obtain rfl := (Prod.mk.inj (Except.ok.inj e)).2
    exact h
  · split at e
    · obtain rfl := (Prod.mk.inj (Except.ok.inj e)).2
      exact h
    · obtain ⟨⟨page', t⟩, et, e⟩ := ok_bind_inv e
      obtain ⟨⟨page'', m⟩, hm, et⟩ := ok_bind_inv et
      obtain ⟨rfl, rfl⟩ := Prod.mk.inj (Except.ok.inj et)
      simp only at e
      split at e
      · cases e
      · obtain ⟨u, eu, e⟩ := ok_bind_inv e
        obtain rfl := (Prod.mk.inj (Except.ok.inj e)).2
        exact appendPte_inside (s := Os.setEntry _ _ _) (h.alloc hm) eu

theorem mmap_inside {handle rv : BitVec 32} (h : s.freemap.Inside)
    (e : mmap s p handle = .ok (rv, s')) : s'.freemap.Inside := by
  unfold mmap at e
  split at e
  · obtain rfl := (Prod.mk.inj (Except.ok.inj e)).2
    exact h
  · split at e
    · obtain rfl := (Prod.mk.inj (Except.ok.inj e)).2
      exact h
    · unfold mmapEntry at e
      obtain ⟨j, -, e⟩ := ok_bind_inv e
      split at e
      · split at e
        · obtain ⟨u, eu, e⟩ := ok_bind_inv e
          obtain rfl := (Prod.mk.inj (Except.ok.inj e)).2
          have hu : u.freemap.Inside := appendPte_inside h eu
          exact hu
        · obtain rfl := (Prod.mk.inj (Except.ok.inj e)).2
          exact h
      · obtain rfl := (Prod.mk.inj (Except.ok.inj e)).2
        exact h

theorem perform_inside {e : LifeEvent} (h : s.freemap.Inside) (hs : s.perform e = .ok s') :
    s'.freemap.Inside := by
  cases e with
  | fork pcb fd =>
      obtain ⟨⟨rv, t⟩, et, hs⟩ := ok_bind_inv hs
      obtain rfl := Except.ok.inj hs
      exact processFork_inside h et
  | shmget pcb =>
      obtain ⟨⟨page, t⟩, et, hs⟩ := ok_bind_inv hs
      obtain rfl := Except.ok.inj hs
      exact createShared_inside h et
  | shmat pcb handle =>
      obtain ⟨⟨rv, t⟩, et, hs⟩ := ok_bind_inv hs
      obtain rfl := Except.ok.inj hs
      exact mmap_inside h et
  | exit pcb => exact freeResources_inside (s := processSetStatus s pcb _) h hs

end Calls

end DlxOs.Memory
