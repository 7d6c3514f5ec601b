import Mathlib

set_option autoImplicit false

/-!
# Append-only Merkle trees, their frontier and incremental witnesses

The tree over a list of leaves is given naively: `node L d i` hashes the leaves
`i * 2 ^ d, …, (i + 1) * 2 ^ d - 1`, an absent leaf counting as uncommitted.
A subtree is complete when all its leaves are present; there are
`L.length / 2 ^ d` of them at level `d`, and appending leaves never changes one.
The frontier keeps the complete left siblings on the path to the next leaf; a
witness of a leaf keeps the complete siblings on its own path, and is completed
by the frontier.
-/
namespace ZcashSdk.MerkleTree

structure NodeHash (H : Type) where
  combine : ℕ → H → H → H
  uncommitted : H

variable {H : Type} (h : NodeHash H)

def emptyRoot : ℕ → H
  | 0 => h.uncommitted
  | d + 1 => h.combine d (emptyRoot d) (emptyRoot d)

def node (L : List H) : ℕ → ℕ → H
  | 0, i => L.getD i h.uncommitted
  | d + 1, i => h.combine d (node L d (2 * i)) (node L d (2 * i + 1))

/-- How many subtrees of level `d` are complete. -/
def complete (L : List H) (d : ℕ) : ℕ := L.length / 2 ^ d

@[simp] theorem complete_zero (L : List H) : complete L 0 = L.length := by
  simp [complete]

theorem complete_succ (L : List H) (d : ℕ) : complete L (d + 1) = complete L d / 2 := by
  simp only [complete, pow_succ, Nat.div_div_eq_div_mul]

theorem complete_append_le (L M : List H) (d : ℕ) : complete L d ≤ complete (L ++ M) d := by
  unfold complete
  exact Nat.div_le_div_right (by simp)

theorem path_le_complete (L : List H) (p d : ℕ) (hp : p < L.length) :
    p / 2 ^ d ≤ complete L d := by
  unfold complete
  exact Nat.div_le_div_right (by omega)

theorem node_append (L M : List H) (d i : ℕ) (hi : i < complete L d) :
    node h (L ++ M) d i = node h L d i := by
  induction d generalizing i with
  | zero =>
    rw [complete_zero] at hi
    exact List.getD_append _ _ _ _ hi
  | succ d ih =>
    rw [complete_succ] at hi
    simp only [node]
    rw [ih (2 * i) (by omega), ih (2 * i + 1) (by omega)]

theorem node_past (L : List H) (d i : ℕ) (hi : L.length ≤ i * 2 ^ d) :
    node h L d i = emptyRoot h d := by
  induction d generalizing i with
  | zero =>
    have hl : L.length ≤ i := by simpa using hi
    simp [node, emptyRoot, List.getElem?_eq_none hl]
  | succ d ih =>
    have hw : i * 2 ^ (d + 1) = 2 * i * 2 ^ d := by rw [pow_succ]; ring
    have hn : 2 * i * 2 ^ d ≤ (2 * i + 1) * 2 ^ d := Nat.mul_le_mul_right _ (by omega)
    simp only [node, emptyRoot]
    rw [ih (2 * i) (by omega), ih (2 * i + 1) (by omega)]

theorem node_after_filling (L : List H) (d : ℕ) :
    node h L d (complete L d + 1) = emptyRoot h d := by
  apply node_past
  have hm := Nat.lt_div_mul_add (a := L.length) (b := 2 ^ d) (by positivity)
  unfold complete
  calc
    L.length ≤ L.length / 2 ^ d * 2 ^ d + 2 ^ d := by omega
    _ = (L.length / 2 ^ d + 1) * 2 ^ d := by ring

/-- The root of a tree of `depth` levels. -/
def root (depth : ℕ) (L : List H) : H := node h L depth 0

/-- Slot `d` of the frontier is filled exactly when bit `d` of the leaf count is set. -/
def frontier (L : List H) (d : ℕ) : Option H :=
  if complete L d % 2 = 1 then some (node h L d (complete L d - 1)) else none

theorem frontier_of_odd (L : List H) (d : ℕ) (ho : complete L d % 2 = 1) :
    frontier h L d = some (node h L d (complete L d - 1)) := by
  simp [frontier, ho]

theorem frontier_of_even (L : List H) (d : ℕ) (he : complete L d % 2 = 0) :
    frontier h L d = none := by
  simp [frontier, he]

/-! ### Levels of complete nodes -/

/-- The complete nodes of level `d` from index `a` on. -/
def level (L : List H) (d a : ℕ) : List H :=
  (List.range' a (complete L d - a)).map (node h L d)

@[simp] theorem level_length (L : List H) (d a : ℕ) :
    (level h L d a).length = complete L d - a := by
  simp [level]

theorem level_getElem? (L : List H) (d a j : ℕ) (hj : a + j < complete L d) :
    (level h L d a)[j]? = some (node h L d (a + j)) := by
  have hr : j < complete L d - a := by omega
  simp [level, hr]

theorem level_cons (L : List H) (d a : ℕ) (ha : a < complete L d) :
    level h L d a = node h L d a :: level h L d (a + 1) := by
  have hs : complete L d - a = (complete L d - (a + 1)) + 1 := by omega
  simp [level, hs, List.range'_succ]

theorem level_zero_append (L M : List H) :
    level h (L ++ M) 0 L.length = M := by
  apply List.ext_getElem?
  intro j
  by_cases hj : j < M.length
  · have hc : L.length + j < complete (L ++ M) 0 := by simp; omega
    rw [level_getElem? h _ _ _ _ hc]
    simp [node, List.getElem?_append_right, List.getElem?_eq_getElem hj]
  · have hn : (level h (L ++ M) 0 L.length).length ≤ j := by simp; omega
    rw [List.getElem?_eq_none hn, List.getElem?_eq_none (by omega)]

theorem node_pair (L : List H) (d a j : ℕ) (ha : a % 2 = 0) :
    h.combine d (node h L d (a + 2 * j)) (node h L d (a + 2 * j + 1)) =
      node h L (d + 1) (a / 2 + j) := by
  have hi : 2 * (a / 2 + j) = a + 2 * j := by omega
  rw [node, hi]

/-! ### Witnesses -/

def sibling (i : ℕ) : ℕ := if i % 2 = 0 then i + 1 else i - 1

/-- What a witness of leaf `p` keeps at level `d`: the sibling, once complete. -/
def ommer (L : List H) (p d : ℕ) : Option H :=
  if sibling (p / 2 ^ d) < complete L d then some (node h L d (sibling (p / 2 ^ d))) else none

theorem ommer_append_of_some (L M : List H) (p d : ℕ) (x : H) (hx : ommer h L p d = some x) :
    ommer h (L ++ M) p d = some x := by
  unfold ommer at hx ⊢
  split_ifs at hx with hs
  have hc := complete_append_le L M d
  rw [if_pos (by omega), node_append h L M d _ hs]
  exact hx

/-- A missing ommer belongs to the subtree that is being filled, or follows it: at its
    level the path of the leaf starts the pair in which the next complete node lands. -/
theorem ommer_eq_none (L : List H) (p d : ℕ) (hp : p < L.length) (hn : ommer h L p d = none) :
    p / 2 ^ d = 2 * (complete L d / 2) := by
  have hle := path_le_complete L p d hp
  unfold ommer sibling at hn
  generalize p / 2 ^ d = i at *
  split_ifs at hn <;> omega

theorem ommer_append_of_none (L M : List H) (p d : ℕ) (hp : p < L.length)
    (hn : ommer h L p d = none) :
    ommer h (L ++ M) p d = (level h (L ++ M) d (2 * (complete L d / 2)))[1]? := by
  have hb := ommer_eq_none h L p d hp hn
  have hs : sibling (p / 2 ^ d) = 2 * (complete L d / 2) + 1 := by
    unfold sibling
    rw [if_pos (by omega), hb]
  unfold ommer
  rw [hs]
  split_ifs with hc
  · rw [level_getElem? h _ _ _ _ hc]
  · rw [List.getElem?_eq_none]
    rw [level_length]
    omega

/-! ### Completing a witness by the frontier -/

/-- The root of the level-`d` subtree being filled, from the frontier slots below `d`. -/
def fillingRoot (e : ℕ → Option H) : ℕ → H
  | 0 => h.uncommitted
  | d + 1 =>
    match e d with
    | some l => h.combine d l (fillingRoot e d)
    | none => h.combine d (fillingRoot e d) (emptyRoot h d)

theorem fillingRoot_frontier (L : List H) (d : ℕ) :
    fillingRoot h (frontier h L) d = node h L d (complete L d) := by
  induction d with
  | zero => simp [fillingRoot, node]
  | succ d ih =>
    by_cases ho : complete L d % 2 = 1
    · have h2 : 2 * (complete L d / 2) = complete L d - 1 := by omega
      have h3 : complete L d - 1 + 1 = complete L d := by omega
      simp only [fillingRoot, frontier_of_odd h L d ho, ih]
      rw [complete_succ, node, h2, h3]
    · have h2 : 2 * (complete L d / 2) = complete L d := by omega
      simp only [fillingRoot, frontier_of_even h L d (by omega), ih]
      rw [complete_succ, node, h2, node_after_filling]

/-- The siblings a witness ends up with: a stored ommer as it is; the lowest missing one
    is the subtree being filled, and above it only empty subtrees are missing. -/
def completedPath (e o : ℕ → Option H) (d : ℕ) : H :=
  match o d with
  | some x => x
  | none => if ∃ k < d, o k = none then emptyRoot h d else fillingRoot h e d

/-- The node of level `d` reached from leaf `p` of value `x` through the given siblings. -/
def climb (p : ℕ) (x : H) (path : ℕ → H) : ℕ → H
  | 0 => x
  | d + 1 =>
    if p / 2 ^ d % 2 = 0 then h.combine d (climb p x path d) (path d)
    else h.combine d (path d) (climb p x path d)

/-- Once the path of a leaf has joined the subtree being filled it stays in it. -/
theorem path_joined (L : List H) (p k d : ℕ) (hk : k < d) (hp : p < L.length)
    (hn : ommer h L p k = none) : p / 2 ^ d = complete L d := by
  have hb := ommer_eq_none h L p k hp hn
  have hd : d = (k + 1) + (d - (k + 1)) := by omega
  unfold complete at *
  rw [hd, pow_add, ← Nat.div_div_eq_div_mul, ← Nat.div_div_eq_div_mul, pow_succ,
    ← Nat.div_div_eq_div_mul, ← Nat.div_div_eq_div_mul, hb]
  congr 1
  omega

theorem path_lt_complete (L : List H) (p d : ℕ) (hp : p < L.length)
    (hall : ∀ k < d, ommer h L p k ≠ none) : p / 2 ^ d < complete L d := by
  induction d with
  | zero => simpa using hp
  | succ d ih =>
    have hown := ih (fun k hk => hall k (by omega))
    have hsib : sibling (p / 2 ^ d) < complete L d := by
      by_contra hc
      exact hall d (by omega) (if_neg hc)
    rw [complete_succ, pow_succ, ← Nat.div_div_eq_div_mul]
    unfold sibling at hsib
    generalize p / 2 ^ d = i at *
    split_ifs at hsib <;> omega

theorem completedPath_eq_node (L : List H) (p d : ℕ) (hp : p < L.length) :
    completedPath h (frontier h L) (ommer h L p) d = node h L d (sibling (p / 2 ^ d)) := by
  unfold completedPath
  cases ho : ommer h L p d with
  | some x =>
    unfold ommer at ho
    split_ifs at ho
    exact (Option.some.inj ho).symm
  | none =>
    have hb := ommer_eq_none h L p d hp ho
    have hs : sibling (p / 2 ^ d) = p / 2 ^ d + 1 := if_pos (by omega)
    dsimp only
    rw [hs]
    split_ifs with hj
    · obtain ⟨k, hk, hkn⟩ := hj
      rw [path_joined h L p k d hk hp hkn, node_after_filling]
    · -- no missing sibling below: the leaf's subtree is the last complete one
      have hlt := path_lt_complete h L p d hp (fun k hk hkn => hj ⟨k, hk, hkn⟩)
      have hle : ¬ p / 2 ^ d + 1 < complete L d := by
        intro hc
        simp [ommer, hs, hc] at ho
      rw [fillingRoot_frontier]
      congr 1
      omega

theorem climb_eq_node (L : List H) (p d : ℕ) (path : ℕ → H)
    (hpath : ∀ k < d, path k = node h L k (sibling (p / 2 ^ k))) :
    climb h p (L.getD p h.uncommitted) path d = node h L d (p / 2 ^ d) := by
  induction d with
  | zero => simp [climb, node]
  | succ d ih =>
    have hd : p / 2 ^ (d + 1) = p / 2 ^ d / 2 := by
      rw [pow_succ, Nat.div_div_eq_div_mul]
    rw [climb, ih (fun k hk => hpath k (by omega)), hpath d (by omega), node, hd]
    unfold sibling
    generalize p / 2 ^ d = i
    split_ifs with he
    · rw [show 2 * (i / 2) = i by omega]
    · rw [show 2 * (i / 2) + 1 = i by omega, show 2 * (i / 2) = i - 1 by omega]

/-- A witness that holds exactly the complete siblings, completed by the frontier,
    recomputes the root from its leaf. -/
theorem climb_completedPath (depth : ℕ) (L : List H) (p : ℕ) (hp : p < L.length)
    (hfit : L.length ≤ 2 ^ depth) :
    climb h p (L.getD p h.uncommitted) (completedPath h (frontier h L) (ommer h L p)) depth =
      root h depth L := by
  rw [climb_eq_node h L p depth _ (fun k _ => completedPath_eq_node h L p k hp),
    Nat.div_eq_of_lt (by omega), root]

end ZcashSdk.MerkleTree
