import ZcashSdk.Pay.Plan
import ZcashSdk.Pay.SelectNotes

set_option autoImplicit false

/-!
# The notes a plan spends

The selection names notes by pool and place, and the builder is given the notes marked in
that way. So they are the selected ones, each once, with their amounts and assets.
-/
namespace ZcashSdk.Pay
open Db Shielded Loops Outcomes Places

/-! ### Marked notes -/

def Plan.pool (plan : Plan) (p : ℕ) : List InputNote := (plan.inputPools[p]?).getD []

def Plan.marked (plan : Plan) (p : ℕ) : List InputNote :=
  ((plan.pool p).zipIdx.filter fun n => n.2 ∈ plan.selection.perPoolIndices p).map Prod.fst

/-- `is_used`: a note whose remaining amount is not its amount. -/
def Plan.spendsFrom (plan : Plan) (p : ℕ) : List InputNote :=
  (plan.marked p).filter fun n => n.amount ≠ 0

def Plan.spends (plan : Plan) : List InputNote := (List.range numPools).flatMap plan.spendsFrom

theorem mem_of_spends {plan : Plan} {n : InputNote} (h : n ∈ plan.spends) :
    ∃ notes ∈ plan.inputPools, n ∈ notes := by
  obtain ⟨p, -, hp⟩ := List.mem_flatMap.1 h
  obtain ⟨⟨m, i⟩, hm, rfl⟩ := List.mem_map.1 (List.mem_of_mem_filter hp)
  have hget := List.mem_zipIdx_iff_getElem?.1 (List.mem_of_mem_filter hm)
  unfold Plan.pool at hget
  cases hnotes : plan.inputPools[p]? with
  | none =>
    rw [hnotes] at hget
    cases hget
  | some notes =>
    rw [hnotes, Option.getD_some] at hget
    exact ⟨notes, List.mem_of_getElem? hnotes, List.mem_of_getElem? hget⟩

/-! ### Candidates are told apart by pool and place -/

theorem mem_poolNotes {zsa : List Bytes} {notes : List InputNote} {pool : ℕ} {x : Solve.Note}
    (h : x ∈ poolNotes zsa notes pool) :
    x.pool = pool ∧ ∃ n, notes[x.poolIndex]? = some n ∧ x.amount = n.amount ∧
      noteAssetIndex zsa n.assetBase = some x.assetIndex := by
  obtain ⟨⟨n, i⟩, hmem, hsome⟩ := List.mem_filterMap.1 h
  obtain ⟨a, ha, rfl⟩ := Option.map_eq_some_iff.1 hsome
  exact ⟨rfl, n, List.mem_zipIdx_iff_getElem?.1 hmem, rfl, ha⟩

theorem mem_selectNotesInput {zsa : List Bytes} {inputPools : List (List InputNote)}
    {x : Solve.Note} (h : x ∈ selectNotesInput zsa inputPools) :
    ∃ notes n, inputPools[x.pool]? = some notes ∧ notes[x.poolIndex]? = some n ∧
      x.amount = n.amount ∧ noteAssetIndex zsa n.assetBase = some x.assetIndex := by
  obtain ⟨⟨notes, p⟩, hmem, hx⟩ := List.mem_flatMap.1 h
  obtain ⟨hpool, n, hn, hamount, hasset⟩ := mem_poolNotes hx
  refine ⟨notes, n, ?_, hn, hamount, hasset⟩
  rw [hpool]
  exact List.mem_zipIdx_iff_getElem?.1 hmem

def place (x : Solve.Note) : ℕ × ℕ := (x.pool, x.poolIndex)

theorem poolNotes_places (zsa : List Bytes) (notes : List InputNote) (pool : ℕ) :
    ((poolNotes zsa notes pool).map place).Nodup := by
  have hpair : notes.zipIdx.Pairwise fun a b => a.2 ≠ b.2 :=
    List.pairwise_map.1 (nodup_zipIdx_snd notes)
  unfold poolNotes
  rw [List.Nodup, List.pairwise_map, List.pairwise_filterMap]
  refine hpair.imp fun {a b} hne x hx y hy heq => hne ?_
  obtain ⟨i, -, rfl⟩ := Option.map_eq_some_iff.1 hx
  obtain ⟨j, -, rfl⟩ := Option.map_eq_some_iff.1 hy
  exact (Prod.mk.inj heq).2

theorem selectNotesInput_places (zsa : List Bytes) (inputPools : List (List InputNote)) :
    ((selectNotesInput zsa inputPools).map place).Nodup := by
  have hpair : inputPools.zipIdx.Pairwise fun a b => a.2 ≠ b.2 :=
    List.pairwise_map.1 (nodup_zipIdx_snd inputPools)
  unfold selectNotesInput
  rw [List.map_flatMap, List.nodup_flatMap]
  refine ⟨fun p _ => poolNotes_places zsa p.1 p.2, hpair.imp fun {a b} hne => ?_⟩
  intro k hka hkb
  obtain ⟨x, hx, rfl⟩ := List.mem_map.1 hka
  obtain ⟨y, hy, hxy⟩ := List.mem_map.1 hkb
  refine hne ?_
  rw [← (mem_poolNotes hx).1, ← (mem_poolNotes hy).1]
  exact (congrArg Prod.fst hxy).symm

/-! ### The marked notes are the selected ones -/

section Marked
variable {zsa : List Bytes} {plan : Plan} {r : Solve.Request}

theorem mem_of_selected (h : Solve.Selected r (selectNotesInput zsa plan.inputPools) plan.selection)
    {x : Solve.Note} (hx : x ∈ plan.selection.inputs) :
    x ∈ selectNotesInput zsa plan.inputPools := List.mem_of_mem_filter (h.once.subset hx)

theorem perPoolIndices_nodup
    (h : Solve.Selected r (selectNotesInput zsa plan.inputPools) plan.selection) (p : ℕ) :
    (plan.selection.perPoolIndices p).Nodup := by
  have hplaces : (plan.selection.inputs.map place).Nodup := by
    obtain ⟨l, hperm, hsub⟩ := h.once
    rw [← (hperm.map place).nodup_iff]
    exact (selectNotesInput_places zsa plan.inputPools).sublist
      ((hsub.trans List.filter_sublist).map place)
  rw [h.indices]
  refine List.Nodup.of_map (fun i => (p, i)) ?_
  have heq : ((plan.selection.inputs.filter fun n => n.pool = p).map Solve.Note.poolIndex).map
      (fun i => (p, i)) = (plan.selection.inputs.filter fun n => n.pool = p).map place := by
    rw [List.map_map]
    refine List.map_congr_left fun n hn => ?_
    have hp : n.pool = p := of_decide_eq_true (List.mem_filter.1 hn).2
    rw [Function.comp_apply, place, hp]
  rw [heq]
  exact hplaces.sublist ((List.filter_sublist).map place)

theorem marked_selected
    (h : Solve.Selected r (selectNotesInput zsa plan.inputPools) plan.selection) (p : ℕ) :
    ((plan.marked p).map fun n => (n.amount, noteAssetIndex zsa n.assetBase)).Perm
      ((plan.selection.inputs.filter fun x => x.pool = p).map fun x =>
        (x.amount, some x.assetIndex)) := by
  have hfound : ∀ x ∈ plan.selection.inputs.filter fun x => x.pool = p, ∃ n,
      (plan.pool p)[x.poolIndex]? = some n ∧ x.amount = n.amount ∧
        noteAssetIndex zsa n.assetBase = some x.assetIndex := by
    intro x hx
    obtain ⟨hmem, hp⟩ := List.mem_filter.1 hx
    obtain ⟨notes, n, hnotes, hn⟩ := mem_selectNotesInput (mem_of_selected h hmem)
    rw [of_decide_eq_true hp] at hnotes
    refine ⟨n, ?_⟩
    rw [Plan.pool, hnotes, Option.getD_some]
    exact hn
  have hlt : ∀ i ∈ plan.selection.perPoolIndices p, i < (plan.pool p).length := by
    intro i hi
    rw [h.indices] at hi
    obtain ⟨x, hx, rfl⟩ := List.mem_map.1 hi
    obtain ⟨n, hn, -⟩ := hfound x hx
    exact (List.getElem?_eq_some_iff.1 hn).1
  refine ((marked_perm (plan.pool p) (perPoolIndices_nodup h p) hlt).map _).trans ?_
  rw [h.indices, List.filterMap_map, List.map_filterMap, ← List.filterMap_eq_map]
  refine List.Perm.of_eq (List.filterMap_congr fun x hx => ?_)
  obtain ⟨n, hn, hamount, hasset⟩ := hfound x hx
  simp only [Function.comp_apply, hn, Option.map_some, hamount, hasset]

end Marked

end ZcashSdk.Pay
