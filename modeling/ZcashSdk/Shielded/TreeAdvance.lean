import ZcashSdk.Shielded.Synchronizer

set_option autoImplicit false

/-!
# Advancing the note commitment tree

One pass of the level loop turns the frontier of `L` into the frontier of `L ++ M` and
gives every witness the siblings that became complete. At level `d` the loop holds the
nodes that `M` completed; the carry from the edge makes them start at an even index.
-/
namespace ZcashSdk.Shielded
open Loops MerkleTree

variable {H : Type} {P : ShieldedProtocol H}

section Levels
variable (h : NodeHash H) (L M : List H)

/-- The index of the first node of level `d` that the loop handles, after the carry. -/
def firstNode (d : ℕ) : ℕ := 2 * (complete L d / 2)

/-- The complete nodes of level `d` in the pairs that `M` touches. -/
def touched (d : ℕ) : List H := level h (L ++ M) d (firstNode L d)

theorem touched_length (d : ℕ) :
    (touched h L M d).length = complete (L ++ M) d - firstNode L d := by
  simp [touched]

theorem firstNode_le (d : ℕ) : firstNode L d ≤ complete (L ++ M) d := by
  have hc := complete_append_le L M d
  unfold firstNode
  omega

theorem touched_getElem? (d j : ℕ) (hj : firstNode L d + j < complete (L ++ M) d) :
    (touched h L M d)[j]? = some (node h (L ++ M) d (firstNode L d + j)) :=
  level_getElem? h _ _ _ _ hj

/-- The carry is the left sibling of the first node of an odd index. -/
theorem touched_of_odd (d : ℕ) (ho : complete L d % 2 = 1) :
    touched h L M d =
      node h L d (complete L d - 1) :: level h (L ++ M) d (complete L d) := by
  have hc := complete_append_le L M d
  have hf : firstNode L d = complete L d - 1 := by unfold firstNode; omega
  unfold touched
  rw [hf, level_cons h _ _ _ (by omega), node_append h L M d _ (by omega)]
  congr 2
  omega

theorem touched_of_even (d : ℕ) (he : complete L d % 2 = 0) :
    touched h L M d = level h (L ++ M) d (complete L d) := by
  have hf : firstNode L d = complete L d := by unfold firstNode; omega
  rw [touched, hf]

/-- Hashing the touched nodes pairwise gives the nodes completed on the next level. -/
theorem combine_touched (hasher : Hasher H) (d : ℕ) :
    hasher.parallelCombineOpt d ((touched hasher.nodeHash L M d).map some)
        ((touched hasher.nodeHash L M d).length / 2) =
      (level hasher.nodeHash (L ++ M) (d + 1) (complete L (d + 1))).map some := by
  have hlen := touched_length hasher.nodeHash L M d
  have hfirst : firstNode L d = 2 * complete L (d + 1) := by
    rw [firstNode, complete_succ]
  have hpairs : (touched hasher.nodeHash L M d).length / 2 =
      complete (L ++ M) (d + 1) - complete L (d + 1) := by
    rw [hlen, complete_succ (L ++ M) d]
    omega
  apply List.ext_getElem?
  intro i
  rw [hpairs]
  by_cases hi : i < complete (L ++ M) (d + 1) - complete L (d + 1)
  · have hin : firstNode L d + (2 * i + 1) < complete (L ++ M) d := by
      rw [complete_succ (L ++ M) d] at hi
      omega
    rw [List.getElem?_map, level_getElem? _ _ _ _ _ (by omega),
      hasher.parallelCombineOpt_pair d _ _ i _ _ hi
        (by rw [List.getElem?_map, touched_getElem? _ L M d (2 * i) (by omega)]; rfl)
        (by rw [List.getElem?_map, touched_getElem? _ L M d (2 * i + 1) hin]; rfl)]
    have hp := node_pair hasher.nodeHash (L ++ M) d (firstNode L d) i (by omega)
    rw [show firstNode L d / 2 = complete L (d + 1) by omega] at hp
    simp only [Option.getD_some, Option.map_some, ← hp]
    rfl
  · rw [List.getElem?_eq_none (by rw [hasher.parallelCombineOpt_length]; omega),
      List.getElem?_eq_none (by simp; omega)]

/-- An odd number of touched nodes leaves the last one on the edge. -/
theorem last_touched (d : ℕ) :
    (if ((touched h L M d).map some).length % 2 = 1 then
      ((touched h L M d).map some).getLast?.join else none) = frontier h (L ++ M) d := by
  have hle := firstNode_le L M d
  have hpar : ((touched h L M d).map some).length % 2 = complete (L ++ M) d % 2 := by
    rw [List.length_map, touched_length]
    unfold firstNode at hle ⊢
    omega
  rw [hpar]
  split_ifs with ho
  · have hlt : firstNode L d < complete (L ++ M) d := by unfold firstNode at hle ⊢; omega
    rw [frontier_of_odd h _ _ ho, List.getLast?_eq_getElem?, List.getElem?_map, List.length_map,
      touched_length, touched_getElem? h L M d _ (by omega),
      show firstNode L d + (complete (L ++ M) d - firstNode L d - 1) =
        complete (L ++ M) d - 1 by omega]
    rfl
  · rw [frontier_of_even h _ _ (by omega)]

theorem unwrapAt_touched (d i : ℕ) (hi : firstNode L d ≤ i) (hc : i < complete (L ++ M) d) :
    unwrapAt ((touched h L M d).map some) (i - firstNode L d) = .ok (node h (L ++ M) d i) := by
  unfold unwrapAt
  rw [List.getElem?_map, touched_getElem? h L M d _ (by omega),
    show firstNode L d + (i - firstNode L d) = i by omega]
  rfl

end Levels

/-! ### Witnesses during the loop -/

section Witnesses
variable (h : NodeHash H)

/-- Siblings over `L` below level `d`, the former ones from there on. -/
def ommersUpTo (L : List H) (p d : ℕ) (o : Edge H) : Edge H :=
  fun k => if k.val < d then ommer h L p k.val else o k

theorem ommersUpTo_zero (L : List H) (p : ℕ) (o : Edge H) : ommersUpTo h L p 0 o = o := by
  funext k
  simp [ommersUpTo]

theorem ommersUpTo_succ (L : List H) (p : ℕ) (d : Fin merkleDepth) (o : Edge H) :
    ommersUpTo h L p (d.val + 1) o =
      Function.update (ommersUpTo h L p d.val o) d (ommer h L p d.val) := by
  funext k
  by_cases hk : k = d
  · subst hk; simp [ommersUpTo]
  · have hv : k.val ≠ d.val := fun he => hk (Fin.ext he)
    rw [Function.update_of_ne hk]
    unfold ommersUpTo
    congr 1
    exact propext (by omega)

/-- The siblings of leaf `p` that are complete in the tree over `L`. -/
def ommersOf (L : List H) (p : ℕ) : Edge H := fun k => ommer h L p k.val

theorem ommersUpTo_depth (L : List H) (p : ℕ) (o : Edge H) :
    ommersUpTo h L p merkleDepth o = ommersOf h L p := by
  funext k
  simp [ommersUpTo, ommersOf, k.isLt]

/-- A tracked note after the levels below `d`. -/
def refreshOld (L : List H) (d : ℕ) (u : UTXO H) : UTXO H :=
  { u with witness := { u.witness with
      ommers := ommersUpTo h L u.witness.position d u.witness.ommers } }

/-- A new note after the levels below `d`; level 0 also sets its leaf. -/
def refreshNew (L : List H) (d : ℕ) (u : UTXO H) : UTXO H :=
  { u with witness :=
      { value := if d = 0 then u.witness.value else L.getD u.position h.uncommitted
        position := if d = 0 then u.witness.position else u.position
        ommers := ommersUpTo h L u.position d u.witness.ommers
        anchor := u.witness.anchor } }

theorem refreshOld_zero (L : List H) (u : UTXO H) : refreshOld h L 0 u = u := by
  rw [refreshOld, ommersUpTo_zero]

theorem refreshNew_zero (L : List H) (u : UTXO H) : refreshNew h L 0 u = u := by
  simp only [refreshNew, ommersUpTo_zero, if_true]

theorem refreshOld_succ (L : List H) (d : Fin merkleDepth) (u : UTXO H) :
    refreshOld h L (d.val + 1) u =
      setOmmer d (ommer h L u.witness.position d.val) (refreshOld h L d.val u) := by
  simp only [refreshOld, ommersUpTo_succ, setOmmer]

/-- A note tracked over `L` holds exactly the complete siblings of its leaf. -/
structure UTXO.Tracks (L : List H) (u : UTXO H) : Prop where
  position : u.witness.position = u.position
  inTree : u.witness.position < L.length
  value : u.witness.value = L.getD u.witness.position h.uncommitted
  ommers : u.witness.ommers = ommersOf h L u.witness.position

theorem updateOld_ok (L M : List H) (d : Fin merkleDepth) (u : UTXO H) (hu : u.Tracks h L) :
    updateOld d ((touched h L M d.val).map some) (refreshOld h (L ++ M) d.val u) =
      .ok (refreshOld h (L ++ M) (d.val + 1) u) := by
  have hcur : (refreshOld h (L ++ M) d.val u).witness.ommers d =
      ommer h L u.witness.position d.val := by
    simp [refreshOld, ommersUpTo, hu.ommers, ommersOf]
  unfold updateOld
  rw [hcur, refreshOld_succ, List.length_map]
  cases ho : ommer h L u.witness.position d.val with
  | some x =>
    rw [ommer_append_of_some h L M _ _ x ho, if_neg (by simp)]
    simp only [setOmmer, ← ho, ← hcur, Function.update_eq_self]
  | none =>
    rw [ommer_append_of_none h L M _ _ hu.inTree ho]
    change _ = Except.ok (setOmmer d (touched h L M d.val)[1]? _)
    split_ifs with hl
    · have h1 : 1 < (touched h L M d.val).length := hl.1
      rw [unwrapAt, List.getElem?_map, List.getElem?_eq_getElem h1]
      rfl
    · have hn : (touched h L M d.val).length ≤ 1 := by
        by_contra hc
        exact hl ⟨by omega, rfl⟩
      rw [List.getElem?_eq_none hn]
      simp only [setOmmer, ← ho, ← hcur, Function.update_eq_self]

theorem subU32_of_le {a b : ℕ} (hb : b ≤ a) (ha : a < 2 ^ 32) : subU32 a b = a - b := by
  unfold subU32 u32
  omega

theorem new_index (L M : List H) (p d : ℕ) (hp : L.length ≤ p) (hlt : p < (L ++ M).length)
    (hfit : (L ++ M).length ≤ 2 ^ 32) :
    subU32 (p >>> d) (firstNode L d) = p / 2 ^ d - firstNode L d ∧
      firstNode L d ≤ p / 2 ^ d ∧ p / 2 ^ d ≤ complete (L ++ M) d := by
  have hge : complete L d ≤ p / 2 ^ d := Nat.div_le_div_right hp
  have hf : firstNode L d ≤ p / 2 ^ d := by unfold firstNode; omega
  have hsmall : p / 2 ^ d ≤ p := Nat.div_le_self _ _
  rw [Nat.shiftRight_eq_div_pow]
  exact ⟨subU32_of_le hf (by omega), hf, path_le_complete _ _ _ hlt⟩

/-- A new note in the middle of level `d`: its leaf is set, its sibling is not. -/
def refreshLeaf (L : List H) (d : ℕ) (u : UTXO H) : UTXO H :=
  { u with witness :=
      { value := L.getD u.position h.uncommitted
        position := u.position
        ommers := ommersUpTo h L u.position d u.witness.ommers
        anchor := u.witness.anchor } }

theorem setLeaf_ok (L M : List H) (d : Fin merkleDepth) (u : UTXO H)
    (hp : L.length ≤ u.position) (hlt : u.position < (L ++ M).length) :
    setLeaf d (u.position >>> d.val) (u.position / 2 ^ d.val - firstNode L d.val)
        ((touched h L M d.val).map some) (refreshNew h (L ++ M) d.val u) =
      .ok (refreshLeaf h (L ++ M) d.val u) := by
  unfold setLeaf
  split_ifs with hz
  · have hge : firstNode L d.val ≤ u.position / 2 ^ d.val := by
      rw [hz]
      simp [firstNode]
      omega
    have hc : u.position / 2 ^ d.val < complete (L ++ M) d.val := by
      rw [hz]
      simpa using hlt
    rw [unwrapAt_touched h L M _ _ hge hc]
    simp [hz, refreshNew, refreshLeaf, node]
  · simp [refreshNew, refreshLeaf, hz]

theorem setSibling_ok (L M : List H) (d : Fin merkleDepth) (u : UTXO H)
    (hge : firstNode L d.val ≤ u.position / 2 ^ d.val)
    (hle : u.position / 2 ^ d.val ≤ complete (L ++ M) d.val) :
    setSibling d (u.position / 2 ^ d.val - firstNode L d.val) ((touched h L M d.val).map some)
      (refreshLeaf h (L ++ M) d.val u) = .ok (refreshNew h (L ++ M) (d.val + 1) u) := by
  have heven : firstNode L d.val % 2 = 0 := by unfold firstNode; omega
  have hset : ∀ o, ommer h (L ++ M) u.position d.val = o →
      setOmmer d o (refreshLeaf h (L ++ M) d.val u) = refreshNew h (L ++ M) (d.val + 1) u := by
    rintro o rfl
    simp only [setOmmer, refreshLeaf, refreshNew, ommersUpTo_succ, Nat.succ_ne_zero, if_false]
  unfold ommer at hset
  unfold setSibling
  rw [List.length_map, touched_length]
  generalize u.position / 2 ^ d.val = i at *
  by_cases hpar : (i - firstNode L d.val) % 2 = 0
  · have hs : sibling i = i + 1 := if_pos (by omega)
    rw [hs] at hset
    rw [if_pos hpar]
    split_ifs with hin
    · have hc : i + 1 < complete (L ++ M) d.val := by omega
      rw [show i - firstNode L d.val + 1 = i + 1 - firstNode L d.val by omega,
        unwrapAt_touched h L M _ _ (by omega) hc, ok_bind, hset _ (if_pos hc)]
    · rw [hset _ (if_neg (by omega))]
  · have hs : sibling i = i - 1 := if_neg (by omega)
    have hc : i - 1 < complete (L ++ M) d.val := by omega
    rw [hs] at hset
    rw [if_neg hpar, show i - firstNode L d.val - 1 = i - 1 - firstNode L d.val by omega,
      unwrapAt_touched h L M _ _ (by omega) hc, ok_bind, hset _ (if_pos hc)]

theorem updateNew_ok (L M : List H) (d : Fin merkleDepth) (u : UTXO H)
    (hp : L.length ≤ u.position) (hlt : u.position < (L ++ M).length)
    (hfit : (L ++ M).length ≤ 2 ^ 32) :
    updateNew d (firstNode L d.val) ((touched h L M d.val).map some)
        (refreshNew h (L ++ M) d.val u) = .ok (refreshNew h (L ++ M) (d.val + 1) u) := by
  obtain ⟨hidx, hge, hle⟩ := new_index L M u.position d.val hp hlt hfit
  have hpos : (refreshNew h (L ++ M) d.val u).position = u.position := rfl
  unfold updateNew
  simp only [hpos, hidx]
  rw [setLeaf_ok h L M d u hp hlt, ok_bind, setSibling_ok h L M d u hge hle]

end Witnesses

/-! ### The loop -/

section Loop

/-- The state of the loop before level `d`. -/
structure LevelInv (h : NodeHash H) (L M : List H) (old new : List (UTXO H)) (edge : Edge H)
    (d : ℕ) (t : TreeUpdate H) : Prop where
  cmxs : t.cmxs = if d = 0 then [] else (level h (L ++ M) d (complete L d)).map some
  newUtxos : t.newUtxos = new.map (refreshNew h (L ++ M) d)
  utxos : t.utxos = old.map (refreshOld h (L ++ M) d)
  treeState : ∀ k, t.treeState k = if k.val < d then frontier h (L ++ M) k.val else edge k

variable {h : NodeHash H} {L M : List H} {old new : List (UTXO H)} {edge : Edge H}

/-- With the carry in front, and the leaves on level 0, the loop holds the touched nodes. -/
theorem takeCarry_ok (d : Fin merkleDepth) (t : TreeUpdate H)
    (hi : LevelInv h L M old new edge d.val t) (he : ∀ k, edge k = frontier h L k.val) :
    ∃ c, takeCarry L.length d t = .ok (c, firstNode L d.val) ∧
      (if d.val = 0 then c ++ M.map some else c) = (touched h L M d.val).map some := by
  have hpos : L.length >>> d.val = complete L d.val := Nat.shiftRight_eq_div_pow _ _
  have hnext : (if d.val = 0 then t.cmxs ++ M.map some else t.cmxs) =
      (level h (L ++ M) d.val (complete L d.val)).map some := by
    rw [hi.cmxs]
    split_ifs with hz
    · rw [hz, complete_zero, level_zero_append, List.nil_append]
    · rfl
  unfold takeCarry
  simp only [hpos]
  by_cases ho : complete L d.val % 2 = 1
  · have hc : t.treeState d = some (node h L d.val (complete L d.val - 1)) := by
      rw [hi.treeState, if_neg (lt_irrefl _), he, frontier_of_odd h L _ ho]
    have hf : complete L d.val - 1 = firstNode L d.val := by unfold firstNode; omega
    rw [if_pos ho, hc]
    refine ⟨_, by rw [← hf], ?_⟩
    rw [touched_of_odd h L M _ ho, List.map_cons, ← hnext]
    split_ifs <;> rfl
  · have hf : complete L d.val = firstNode L d.val := by unfold firstNode; omega
    rw [if_neg ho]
    refine ⟨_, by rw [← hf], ?_⟩
    rw [touched_of_even h L M _ (by omega), hnext]

theorem levelStep_ok (hasher : Hasher H) (hh : hasher.nodeHash = h) (d : Fin merkleDepth)
    (t : TreeUpdate H) (hi : LevelInv h L M old new edge d.val t)
    (he : ∀ k, edge k = frontier h L k.val) (hold : ∀ u ∈ old, u.Tracks h L)
    (hnew : ∀ u ∈ new, L.length ≤ u.position ∧ u.position < (L ++ M).length)
    (hfit : (L ++ M).length ≤ 2 ^ 32) :
    ∃ t', levelStep hasher L.length M t d = .ok t' ∧
      LevelInv h L M old new edge (d.val + 1) t' := by
  subst hh
  obtain ⟨c, hc, hcm⟩ := takeCarry_ok d t hi he
  have hn : t.newUtxos.mapM (updateNew d (firstNode L d.val)
      ((touched hasher.nodeHash L M d.val).map some)) =
      .ok (new.map (refreshNew hasher.nodeHash (L ++ M) (d.val + 1))) := by
    rw [hi.newUtxos, List.mapM_map]
    exact mapM_ok_of_forall _ _ _ fun u hu =>
      updateNew_ok _ L M d u (hnew u hu).1 (hnew u hu).2 hfit
  have ho : t.utxos.mapM (updateOld d ((touched hasher.nodeHash L M d.val).map some)) =
      .ok (old.map (refreshOld hasher.nodeHash (L ++ M) (d.val + 1))) := by
    rw [hi.utxos, List.mapM_map]
    exact mapM_ok_of_forall _ _ _ fun u hu => updateOld_ok _ L M d u (hold u hu)
  unfold levelStep
  simp only [hc, ok_bind, hcm, hn, ho]
  refine ⟨_, rfl, ?_, rfl, rfl, ?_⟩
  · rw [if_neg (Nat.succ_ne_zero _), List.length_map, combine_touched]
  · intro k
    rw [last_touched]
    change Function.update t.treeState d (frontier hasher.nodeHash (L ++ M) d.val) k = _
    by_cases hk : k = d
    · subst hk; simp
    · have hv : k.val ≠ d.val := fun heq => hk (Fin.ext heq)
      rw [Function.update_of_ne hk, hi.treeState]
      congr 1
      exact propext (by omega)

/-- The tree part of `add`: no panic, the new frontier, and refreshed witnesses. -/
theorem advanceTree_ok (s : Synchronizer P) (L M : List H) (new : List (UTXO H))
    (hpos : s.position = L.length)
    (he : ∀ k, s.treeState k = frontier P.hasher.nodeHash L k.val)
    (hold : ∀ u ∈ s.utxos, u.Tracks P.hasher.nodeHash L)
    (hnew : ∀ u ∈ new, L.length ≤ u.position ∧ u.position < (L ++ M).length)
    (hfit : (L ++ M).length ≤ 2 ^ 32) :
    ∃ t, advanceTree s M new = .ok t ∧
      t.newUtxos = new.map (refreshNew P.hasher.nodeHash (L ++ M) merkleDepth) ∧
      t.utxos = s.utxos.map (refreshOld P.hasher.nodeHash (L ++ M) merkleDepth) ∧
      ∀ k, t.treeState k = frontier P.hasher.nodeHash (L ++ M) k.val := by
  have hinit : LevelInv P.hasher.nodeHash L M s.utxos new s.treeState 0
      ⟨[], new, s.utxos, s.treeState⟩ :=
    ⟨rfl, by rw [funext (refreshNew_zero _ _), List.map_id'],
      by rw [funext (refreshOld_zero _ _), List.map_id'], fun k => by simp⟩
  obtain ⟨t, ht, hi⟩ := foldlM_finRange (levelStep P.hasher L.length M)
    (LevelInv P.hasher.nodeHash L M s.utxos new s.treeState) _ hinit
    (fun d t hi => levelStep_ok P.hasher rfl d t hi he hold hnew hfit)
  refine ⟨t, by rw [advanceTree, hpos]; exact ht, hi.newUtxos, hi.utxos, fun k => ?_⟩
  rw [hi.treeState, if_pos k.isLt]

end Loop

end ZcashSdk.Shielded
