import Mathlib

set_option autoImplicit false

/-!
# Places of a list

Selecting from a list by the places of its elements, so that equal elements are told apart.
-/
namespace ZcashSdk.Places

variable {α : Type}

theorem map_range_getElem? (l : List α) :
    (List.range l.length).map (fun i => l[i]?) = l.map some := by
  refine List.ext_getElem (by simp) fun i hi hi' => ?_
  simp only [List.length_map, List.length_range] at hi
  simp [hi]

theorem filterMap_map_some (l : List α) : (l.map some).filterMap id = l := by simp

theorem subperm_of_nodup {l xs : List α} {is : List ℕ} (hn : is.Nodup)
    (h : is.map (fun i => l[i]?) = xs.map some) : List.Subperm xs l := by
  have hsub : List.Subperm is (List.range l.length) := by
    refine hn.subperm fun i hi => ?_
    have hmem : l[i]? ∈ xs.map some := h ▸ List.mem_map_of_mem hi
    obtain ⟨x, -, hx⟩ := List.mem_map.1 hmem
    exact List.mem_range.2 (List.getElem?_eq_some_iff.1 hx.symm).1
  obtain ⟨js, hperm, hsublist⟩ := hsub
  have hsome : List.Subperm (xs.map some) (l.map some) := by
    rw [← h, ← map_range_getElem? l]
    exact ⟨js.map _, hperm.map _, hsublist.map _⟩
  obtain ⟨ys, hys, hyl⟩ := hsome
  rw [← filterMap_map_some xs, ← filterMap_map_some l]
  exact ⟨ys.filterMap id, hys.filterMap _, hyl.filterMap _⟩

theorem perm_of_range {l xs : List α} {is : List ℕ} (hn : is.Perm (List.range l.length))
    (h : is.map (fun i => l[i]?) = xs.map some) : xs.Perm l := by
  have hsome : (xs.map some).Perm (l.map some) := by
    rw [← h, ← map_range_getElem? l]
    exact hn.map _
  rw [← filterMap_map_some xs, ← filterMap_map_some l]
  exact hsome.filterMap id

theorem filterMap_of_map {l xs : List α} {is : List ℕ}
    (h : is.map (fun i => l[i]?) = xs.map some) : is.filterMap (fun i => l[i]?) = xs := by
  rw [← filterMap_map_some xs, ← h, List.filterMap_map]
  rfl

theorem exists_places_of_sublist {l xs : List α} (h : xs.Sublist l) :
    ∃ is : List ℕ, is.Nodup ∧ is.map (fun i => l[i]?) = xs.map some := by
  have hshift : ∀ (a : α) (l : List α) (is : List ℕ),
      (is.map Nat.succ).map (fun i => (a :: l)[i]?) = is.map fun i => l[i]? := by
    intro a l is
    rw [List.map_map]
    exact List.map_congr_left fun i _ => List.getElem?_cons_succ
  induction h with
  | slnil => exact ⟨[], List.nodup_nil, rfl⟩
  | cons a _ ih =>
    obtain ⟨is, hn, his⟩ := ih
    exact ⟨is.map Nat.succ, hn.map Nat.succ_injective, by rw [hshift, his]⟩
  | cons_cons a _ ih =>
    obtain ⟨is, hn, his⟩ := ih
    refine ⟨0 :: is.map Nat.succ, List.nodup_cons.2 ⟨by simp, hn.map Nat.succ_injective⟩, ?_⟩
    rw [List.map_cons, hshift, his]
    rfl

theorem exists_places {l xs : List α} (h : List.Subperm xs l) :
    ∃ (is : List ℕ) (ys : List α), is.Nodup ∧ is.map (fun i => l[i]?) = ys.map some ∧
      ys.Perm xs := by
  obtain ⟨ys, hperm, hsub⟩ := h
  obtain ⟨is, hn, his⟩ := exists_places_of_sublist hsub
  exact ⟨is, ys, hn, his, hperm⟩

theorem nodup_zipIdx_snd (l : List α) : (l.zipIdx.map Prod.snd).Nodup := by
  rw [List.zipIdx_map_snd]
  exact List.nodup_range'

theorem marked_perm (l : List α) {is : List ℕ} (hn : is.Nodup) (hlt : ∀ i ∈ is, i < l.length) :
    ((l.zipIdx.filter fun n => n.2 ∈ is).map Prod.fst).Perm (is.filterMap fun i => l[i]?) := by
  have hsnd : ((l.zipIdx.filter fun n => n.2 ∈ is).map Prod.snd).Perm is := by
    rw [List.perm_ext_iff_of_nodup ((nodup_zipIdx_snd l).sublist ((List.filter_sublist).map _)) hn]
    intro i
    constructor
    · intro hi
      obtain ⟨n, hmem, rfl⟩ := List.mem_map.1 hi
      exact of_decide_eq_true (List.mem_filter.1 hmem).2
    · intro hi
      refine List.mem_map.2 ⟨(l.get ⟨i, hlt i hi⟩, i), ?_, rfl⟩
      rw [List.mem_filter]
      exact ⟨List.mem_zipIdx_iff_getElem?.2 (List.getElem?_eq_getElem (hlt i hi)), decide_eq_true hi⟩
  have hfst : (l.zipIdx.filter fun n => n.2 ∈ is).map Prod.fst =
      ((l.zipIdx.filter fun n => n.2 ∈ is).map Prod.snd).filterMap fun i => l[i]? := by
    rw [List.filterMap_map, ← List.filterMap_eq_map]
    refine List.filterMap_congr fun n hmem => ?_
    exact (List.mem_zipIdx_iff_getElem?.1 (List.mem_of_mem_filter hmem)).symm
  rw [hfst]
  exact hsnd.filterMap _

theorem marked_append_unmarked (l : List α) (is : List ℕ) :
    ((l.zipIdx.filter fun n => n.2 ∈ is).map Prod.fst ++
      (l.zipIdx.filter fun n => n.2 ∉ is).map Prod.fst).Perm l := by
  have hsplit := (List.filter_append_perm (fun n : α × ℕ => decide (n.2 ∈ is)) l.zipIdx).map Prod.fst
  rw [List.map_append, List.zipIdx_map_fst] at hsplit
  simpa only [decide_not] using hsplit

end ZcashSdk.Places
