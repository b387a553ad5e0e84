import Mathlib.Data.Nat.ModEq
import Mathlib.Data.List.Nodup

namespace SnakeOs.Lib

/-- The `n` indices from `c` on in a ring of `N` places. -/
def window (N c n : Nat) : List Nat := (List.range n).map fun k => (c + k) % N

variable {N c m n : Nat}

@[simp]
theorem window_zero : window N c 0 = [] := rfl

@[simp]
theorem length_window : (window N c n).length = n := by simp [window]

theorem window_append : window N c (m + n) = window N c m ++ window N ((c + m) % N) n := by
  simp only [window, List.range_add, List.map_append, List.map_map]
  congr 1
  apply List.map_congr_left
  intro k _
  simp [Nat.add_assoc]

theorem window_cons (h : c < N) : window N c (n + 1) = c :: window N ((c + 1) % N) n := by
  rw [Nat.add_comm n 1, window_append]
  simp [window, Nat.mod_eq_of_lt h]

theorem window_snoc : window N c (n + 1) = window N c n ++ [(c + n) % N] := by
  simp [window, List.range_succ]

theorem mem_window {i : Nat} : i ∈ window N c n ↔ ∃ k < n, (c + k) % N = i := by
  simp [window]

/-- Two places of a window are different as long as it does not go round. -/
theorem window_place_inj {k l : Nat} (hk : k < N) (hl : l < N) (h : (c + k) % N = (c + l) % N) :
    k = l := by
  have hm : k ≡ l [MOD N] := Nat.ModEq.add_left_cancel' c h
  rwa [Nat.ModEq, Nat.mod_eq_of_lt hk, Nat.mod_eq_of_lt hl] at hm

theorem window_place_ne {k : Nat} (hc : c < N) (hk : 0 < k) (hkN : k < N) : (c + k) % N ≠ c := by
  intro e
  have he : (c + k) % N = (c + 0) % N := by rw [e, Nat.add_zero, Nat.mod_eq_of_lt hc]
  have := window_place_inj hkN (by omega) he
  omega

theorem window_nodup (h : n ≤ N) : (window N c n).Nodup := by
  refine List.Nodup.map_on ?_ List.nodup_range
  intro k hk l hl he
  simp only [List.mem_range] at hk hl
  exact window_place_inj (by omega) (by omega) he

theorem window_end_not_mem (h : n < N) : (c + n) % N ∉ window N c n := by
  intro hm
  obtain ⟨k, hk, he⟩ := mem_window.mp hm
  have := window_place_inj (by omega) h he
  omega

theorem window_start_not_mem (hc : c < N) (h : n < N) : c ∉ window N ((c + 1) % N) n := by
  have := window_nodup (c := c) (Nat.succ_le_of_lt h)
  rw [window_cons hc] at this
  exact (List.nodup_cons.mp this).1

/-- A window of full length is the whole ring. -/
theorem mem_window_full {i : Nat} (hc : c < N) (hi : i < N) : i ∈ window N c N := by
  refine mem_window.mpr ?_
  by_cases h : c ≤ i
  · exact ⟨i - c, by omega, by rw [Nat.add_sub_cancel' h, Nat.mod_eq_of_lt hi]⟩
  · refine ⟨N + i - c, by omega, ?_⟩
    rw [show c + (N + i - c) = i + N by omega, Nat.add_mod_right, Nat.mod_eq_of_lt hi]

/-- A window and what follows it make up the ring. -/
theorem range_perm_window (hc : c < N) (hn : n ≤ N) :
    (List.range N).Perm (window N c n ++ window N ((c + n) % N) (N - n)) := by
  rw [← window_append, Nat.add_sub_cancel' hn]
  refine (List.perm_ext_iff_of_nodup List.nodup_range (window_nodup le_rfl)).mpr fun i => ?_
  refine ⟨fun hi => mem_window_full hc (List.mem_range.mp hi), fun hi => ?_⟩
  obtain ⟨k, _, rfl⟩ := mem_window.mp hi
  exact List.mem_range.mpr (Nat.mod_lt _ (Nat.zero_lt_of_lt hc))

end SnakeOs.Lib
