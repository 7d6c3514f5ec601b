import ZcashSdk.Shielded.Synchronizer

set_option autoImplicit false

/-!
# The scan in chain order

`scanNotes` decrypts the actions of a whole chunk, then its issuance notes, sorts
what it found and walks the blocks once more. `receiveTxs` does all of it one
transaction after another; the two agree on every chunk of blocks with increasing
heights.
-/
namespace ZcashSdk.Shielded
open Loops

variable {H : Type} {P : ShieldedProtocol H}

/-- Blocks of a chunk have increasing heights. -/
def Ascending (blocks : List (CompactBlock H)) : Prop :=
  blocks.Pairwise fun a b => a.height < b.height

def TxAt.key (t : TxAt H) : ℕ × ℕ := (t.block.height, t.ivtx)

def TxAt.Before (a b : TxAt H) : Prop :=
  a.block.height < b.block.height ∨ (a.block.height = b.block.height ∧ a.ivtx < b.ivtx)

theorem TxAt.Before.key_ne {a b : TxAt H} (hb : a.Before b) : a.key ≠ b.key := by
  intro he
  have h1 : a.block.height = b.block.height := congrArg Prod.fst he
  have h2 : a.ivtx = b.ivtx := congrArg Prod.snd he
  rcases hb with hb | hb <;> omega

theorem zipIdx_pairwise {α : Type} (l : List α) (k : ℕ) :
    (l.zipIdx k).Pairwise fun a b => a.2 < b.2 := by
  induction l generalizing k with
  | nil => simp
  | cons a l ih =>
    rw [List.zipIdx_cons, List.pairwise_cons]
    refine ⟨?_, ih (k + 1)⟩
    intro b hb
    have := List.le_snd_of_mem_zipIdx hb
    omega

theorem mem_blockTxs {b : CompactBlock H} {t : TxAt H} (ht : t ∈ blockTxs b) : t.block = b := by
  obtain ⟨x, -, rfl⟩ := List.mem_map.1 ht
  rfl

theorem blockTxs_before (b : CompactBlock H) : (blockTxs b).Pairwise TxAt.Before := by
  unfold blockTxs
  rw [List.pairwise_map]
  exact (zipIdx_pairwise b.vtx 0).imp fun hlt => Or.inr ⟨rfl, hlt⟩

theorem chunkTxs_before (blocks : List (CompactBlock H)) (ha : Ascending blocks) :
    (chunkTxs blocks).Pairwise TxAt.Before := by
  unfold chunkTxs
  rw [List.pairwise_flatMap]
  refine ⟨fun b _ => blockTxs_before b, ?_⟩
  refine List.Pairwise.imp ?_ ha
  intro a b hab t ht u hu
  left
  rw [mem_blockTxs ht, mem_blockTxs hu]
  exact hab

theorem chunkTxs_append (as bs : List (CompactBlock H)) :
    chunkTxs (as ++ bs) = chunkTxs as ++ chunkTxs bs := by
  simp [chunkTxs]

/-! ### What one transaction yields -/

structure FoundTx (P : ShieldedProtocol H) where
  tx : TxAt H
  actions : List (Found P)
  issuance : IssuanceScan P

def FoundTx.notes (f : FoundTx P) : List (Found P) := f.actions ++ f.issuance.found

def Found.OfTx (t : TxAt H) (n : Found P) : Prop :=
  n.2.1.height = t.block.height ∧ n.2.1.ivtx = t.ivtx

instance (t : TxAt H) (n : Found P) : Decidable (Found.OfTx t n) :=
  inferInstanceAs (Decidable (_ ∧ _))

theorem tryKeys_mem {keys : List (Key P)}
    {decrypt : Key P → Except Fault (Option (P.PNote × Note H))} {found : List (Found P)}
    (hf : tryKeys keys decrypt = .ok found) {n : Found P} (hn : n ∈ found) :
    ∃ k ∈ keys, decrypt k = .ok (some (n.1, n.2.1)) ∧ n.2.2 = k.nk := by
  obtain ⟨k, hk, xs, hx, hm⟩ := mem_flatMapM hf hn
  obtain ⟨r, hr, hxs⟩ := bind_eq_ok.1 hx
  cases r with
  | none => simp at hxs; subst hxs; simp at hm
  | some q =>
    simp only [Option.toList_some, List.map_cons, List.map_nil, Except.ok.injEq] at hxs
    subst hxs
    rw [List.mem_singleton] at hm
    subst hm
    refine ⟨k, hk, ?_, rfl⟩
    unfold orWarn at hr
    split at hr
    · simp at hr
    · exact hr

theorem tryKeys_output (hP : P.Lawful) {keys : List (Key P)} {t : TxAt H} {vout : ℕ}
    {o : P.Output} {found : List (Found P)}
    (hf : (tryKeys keys fun k =>
      P.tryDecrypt k.account k.scope k.ivk t.block.height t.ivtx vout o) = .ok found)
    {n : Found P} (hn : n ∈ found) :
    Found.OfTx t n ∧ n.2.1.vout = vout ∧ n.2.1.cmx = P.extractCmx o := by
  obtain ⟨k, -, hd, -⟩ := tryKeys_mem hf hn
  obtain ⟨⟨-, -, hh, hi, hv⟩, hc⟩ := hP.tryDecrypt_found _ _ _ _ _ _ _ _ _ hd
  exact ⟨⟨hh, hi⟩, hv, hc⟩

theorem tryKeys_issuance (hP : P.Lawful) {keys : List (Key P)} {t : TxAt H} {vout : ℕ}
    {note : CompactIssueNote} {base : Bytes} {found : List (Found P)}
    (hf : (tryKeys keys fun k =>
      P.tryDecryptIssuance k.account k.scope k.ivk t.block.height t.ivtx vout note base) =
        .ok found)
    {n : Found P} (hn : n ∈ found) :
    Found.OfTx t n ∧ n.2.1.vout = vout ∧
      P.computeIssuanceCmx note base = .ok (some n.2.1.cmx) := by
  obtain ⟨k, -, hd, -⟩ := tryKeys_mem hf hn
  obtain ⟨⟨-, -, hh, hi, hv⟩, hc⟩ := hP.tryDecryptIssuance_found _ _ _ _ _ _ _ _ _ _ hd
  exact ⟨⟨hh, hi⟩, hv, hc⟩

/-- Notes of a transaction in output order, each opening the commitment at its index. -/
structure Ordered (t : TxAt H) (lo : ℕ) (cmxs : List H) (found : List (Found P)) : Prop where
  ofTx : ∀ n ∈ found, Found.OfTx t n
  sorted : found.Pairwise fun a b => a.2.1.vout ≤ b.2.1.vout
  commits : ∀ n ∈ found, lo ≤ n.2.1.vout ∧ cmxs[n.2.1.vout - lo]? = some n.2.1.cmx

theorem Ordered.nil (t : TxAt H) (lo : ℕ) (cmxs : List H) :
    Ordered (P := P) t lo cmxs [] :=
  ⟨by simp, by simp, by simp⟩

theorem Ordered.vout_lt {t : TxAt H} {lo : ℕ} {cmxs : List H} {found : List (Found P)}
    (ho : Ordered t lo cmxs found) {n : Found P} (hn : n ∈ found) :
    n.2.1.vout < lo + cmxs.length := by
  obtain ⟨hl, hc⟩ := ho.commits n hn
  have := (List.getElem?_eq_some_iff.1 hc).1
  omega

theorem Ordered.append {t : TxAt H} {lo : ℕ} {cs ds : List H} {xs ys : List (Found P)}
    (hx : Ordered t lo cs xs) (hy : Ordered t (lo + cs.length) ds ys) :
    Ordered t lo (cs ++ ds) (xs ++ ys) where
  ofTx := by
    intro n hn
    rcases List.mem_append.1 hn with hn | hn
    · exact hx.ofTx n hn
    · exact hy.ofTx n hn
  sorted := by
    rw [List.pairwise_append]
    refine ⟨hx.sorted, hy.sorted, fun a ha b hb => ?_⟩
    have h1 := hx.vout_lt ha
    have h2 := (hy.commits b hb).1
    omega
  commits := by
    intro n hn
    rcases List.mem_append.1 hn with hn | hn
    · obtain ⟨hl, hc⟩ := hx.commits n hn
      have hlt := hx.vout_lt hn
      exact ⟨hl, by rw [List.getElem?_append_left (by omega)]; exact hc⟩
    · obtain ⟨hl, hc⟩ := hy.commits n hn
      refine ⟨by omega, ?_⟩
      rw [List.getElem?_append_right (by omega)]
      rw [show n.2.1.vout - lo - cs.length = n.2.1.vout - (lo + cs.length) by omega]
      exact hc

theorem Ordered.single {t : TxAt H} {lo : ℕ} {c : H} {found : List (Found P)}
    (hf : ∀ n ∈ found, Found.OfTx t n ∧ n.2.1.vout = lo ∧ n.2.1.cmx = c) :
    Ordered t lo [c] found where
  ofTx := fun n hn => (hf n hn).1
  sorted := by
    rw [List.pairwise_iff_forall_sublist]
    intro a b hab
    have ha := hf a (hab.subset (by simp))
    have hb := hf b (hab.subset (by simp))
    omega
  commits := by
    intro n hn
    obtain ⟨-, hv, hc⟩ := hf n hn
    simp [hv, hc]

theorem decryptTx_ordered (hP : P.Lawful) (keys : List (Key P)) (t : TxAt H)
    (found : List (Found P)) (hd : decryptTx keys t = .ok found) :
    Ordered t 0 ((P.extractOutputs t.tx).map P.extractCmx) found := by
  suffices hk : ∀ (os : List P.Output) (k : ℕ) (xs : List (Found P)),
      flatMapM (fun o => tryKeys keys fun key =>
        P.tryDecrypt key.account key.scope key.ivk t.block.height t.ivtx o.2 o.1)
        (os.zipIdx k) = .ok xs → Ordered t k (os.map P.extractCmx) xs from hk _ 0 found hd
  intro os
  induction os with
  | nil =>
    intro k xs hx
    simp [flatMapM] at hx
    subst hx
    exact Ordered.nil t k _
  | cons o os ih =>
    intro k xs hx
    rw [List.zipIdx_cons] at hx
    obtain ⟨us, vs, hu, hv, rfl⟩ := (flatMapM_cons_ok _ _ _ _).1 hx
    rw [List.map_cons, ← List.singleton_append]
    exact (Ordered.single fun n hn => tryKeys_output hP hu hn).append (ih (k + 1) vs hv)

/-- The issuance scan after some notes: its commitments are consecutive from the number of
    actions on, unless the pool has no issuance and then there is nothing at all. -/
structure IssuanceInv (P : ShieldedProtocol H) (t : TxAt H) (acc : IssuanceScan P) : Prop where
  ordered : Ordered t (P.extractOutputs t.tx).length acc.cmxs acc.found
  vout : acc.noteVout = (P.extractOutputs t.tx).length + acc.cmxs.length ∨
    ∀ note base, P.computeIssuanceCmx note base = .ok none

theorem issuanceNote_inv (hP : P.Lawful) (keys : List (Key P)) (t : TxAt H) (base : Bytes)
    (acc acc' : IssuanceScan P) (note : CompactIssueNote) (hi : IssuanceInv P t acc)
    (hn : issuanceNote keys t base acc note = .ok acc') : IssuanceInv P t acc' := by
  obtain ⟨cmx, hc, hn⟩ := bind_eq_ok.1 hn
  obtain ⟨found, hf, hn⟩ := bind_eq_ok.1 hn
  rw [Except.ok.injEq] at hn
  subst hn
  rcases hP.issuance_uniform with hnone | hsome
  · have hcn : cmx = none := by rw [hnone] at hc; exact (Except.ok.inj hc).symm
    have hfn : found = [] := by
      rw [List.eq_nil_iff_forall_not_mem]
      intro n hn
      have := (tryKeys_issuance hP hf hn).2.2
      rw [hnone] at this
      simp at this
    subst hcn hfn
    exact ⟨by simpa using hi.ordered, Or.inr hnone⟩
  · obtain ⟨c, rfl⟩ : ∃ c, cmx = some c := by
      cases cmx with
      | none => exact absurd hc (hsome _ _)
      | some c => exact ⟨c, rfl⟩
    have hv : acc.noteVout = (P.extractOutputs t.tx).length + acc.cmxs.length := by
      rcases hi.vout with hv | hv
      · exact hv
      · exact absurd (hv note base) (hsome _ _)
    have hone : Ordered t acc.noteVout [c] found := Ordered.single fun n hn => by
      obtain ⟨ho, hvo, hcm⟩ := tryKeys_issuance hP hf hn
      rw [hc] at hcm
      simp only [Except.ok.injEq, Option.some.injEq] at hcm
      exact ⟨ho, hvo, hcm.symm⟩
    refine ⟨?_, Or.inl ?_⟩
    · rw [hv] at hone
      exact hi.ordered.append hone
    · simp only [Option.toList_some, List.length_append, List.length_singleton]
      omega

theorem issuanceTx_ordered (hP : P.Lawful) (assetBaseOf : AssetBaseOf) (keys : List (Key P))
    (t : TxAt H) (i : IssuanceScan P) (hi : issuanceTx assetBaseOf keys t = .ok i) :
    Ordered t (P.extractOutputs t.tx).length i.cmxs i.found := by
  refine (foldlM_inv _ (IssuanceInv P t) ?_ t.tx.issuances _ i
    ⟨Ordered.nil t _ _, Or.inl rfl⟩ hi).ordered
  intro s iss s' hs hstep
  obtain ⟨base, -, hstep⟩ := bind_eq_ok.1 hstep
  exact foldlM_inv _ (IssuanceInv P t)
    (fun a note a' ha hn => issuanceNote_inv hP keys t base a a' note ha hn) iss.notes s s' hs hstep

/-- Decrypting all actions first and all issuance notes afterwards finds, transaction by
    transaction, what `findTxs` finds. -/
def findTxs (assetBaseOf : AssetBaseOf) (keys : List (Key P)) (ts : List (TxAt H)) :
    Except Fault (List (FoundTx P)) :=
  flatMapM (fun t => do
    let a ← decryptTx keys t
    let i ← issuanceTx assetBaseOf keys t
    .ok [⟨t, a, i⟩]) ts

theorem findTxs_cons_ok (assetBaseOf : AssetBaseOf) (keys : List (Key P)) (t : TxAt H)
    (ts : List (TxAt H)) (fs : List (FoundTx P)) :
    findTxs assetBaseOf keys (t :: ts) = .ok fs ↔
      ∃ a i gs, decryptTx keys t = .ok a ∧ issuanceTx assetBaseOf keys t = .ok i ∧
        findTxs assetBaseOf keys ts = .ok gs ∧ fs = ⟨t, a, i⟩ :: gs := by
  unfold findTxs
  rw [flatMapM_cons_ok]
  simp only [bind_eq_ok, Except.ok.injEq]
  constructor
  · rintro ⟨-, gs, ⟨a, ha, i, hi, rfl⟩, hg, rfl⟩
    exact ⟨a, i, gs, ha, hi, hg, rfl⟩
  · rintro ⟨a, i, gs, ha, hi, hg, rfl⟩
    exact ⟨_, gs, ⟨a, ha, i, hi, rfl⟩, hg, rfl⟩

theorem scans_ok_iff (assetBaseOf : AssetBaseOf) (keys : List (Key P)) (ts : List (TxAt H))
    (as : List (Found P)) (is : List (TxAt H × IssuanceScan P)) :
    flatMapM (decryptTx keys) ts = .ok as ∧ issuanceTxs assetBaseOf keys ts = .ok is ↔
      ∃ fs, findTxs assetBaseOf keys ts = .ok fs ∧ as = fs.flatMap FoundTx.actions ∧
        is = fs.map fun f => (f.tx, f.issuance) := by
  induction ts generalizing as is with
  | nil =>
    simp only [flatMapM, issuanceTxs, findTxs, Except.ok.injEq]
    constructor
    · rintro ⟨rfl, rfl⟩
      exact ⟨[], rfl, rfl, rfl⟩
    · rintro ⟨fs, rfl, rfl, rfl⟩
      exact ⟨rfl, rfl⟩
  | cons t ts ih =>
    have hcons : ∀ js, issuanceTxs assetBaseOf keys (t :: ts) = .ok js ↔
        ∃ i ks, issuanceTx assetBaseOf keys t = .ok i ∧ issuanceTxs assetBaseOf keys ts = .ok ks ∧
          js = (t, i) :: ks := by
      intro js
      unfold issuanceTxs
      rw [flatMapM_cons_ok]
      simp only [bind_eq_ok, Except.ok.injEq]
      constructor
      · rintro ⟨-, ks, ⟨i, hi, rfl⟩, hk, rfl⟩
        exact ⟨i, ks, hi, hk, rfl⟩
      · rintro ⟨i, ks, hi, hk, rfl⟩
        exact ⟨_, ks, ⟨i, hi, rfl⟩, hk, rfl⟩
    rw [flatMapM_cons_ok, hcons]
    constructor
    · rintro ⟨⟨xs, ys, hx, hy, rfl⟩, i, ks, hi, hk, rfl⟩
      obtain ⟨gs, hg, rfl, rfl⟩ := (ih ys ks).1 ⟨hy, hk⟩
      exact ⟨⟨t, xs, i⟩ :: gs, (findTxs_cons_ok _ _ _ _ _).2 ⟨xs, i, gs, hx, hi, hg, rfl⟩,
        rfl, rfl⟩
    · rintro ⟨fs, hf, rfl, rfl⟩
      obtain ⟨a, i, gs, ha, hi, hg, rfl⟩ := (findTxs_cons_ok _ _ _ _ _).1 hf
      obtain ⟨hy, hk⟩ := (ih _ _).2 ⟨gs, hg, rfl, rfl⟩
      exact ⟨⟨a, _, ha, hy, rfl⟩, i, _, hi, hk, rfl⟩

theorem findTxs_tx (assetBaseOf : AssetBaseOf) (keys : List (Key P)) (ts : List (TxAt H))
    (fs : List (FoundTx P)) (hf : findTxs assetBaseOf keys ts = .ok fs) :
    fs.map FoundTx.tx = ts := by
  induction ts generalizing fs with
  | nil => simp [findTxs, flatMapM] at hf; subst hf; rfl
  | cons t ts ih =>
    obtain ⟨a, i, gs, -, -, hg, rfl⟩ := (findTxs_cons_ok _ _ _ _ _).1 hf
    rw [List.map_cons, ih gs hg]

/-- The notes of one transaction are those of its actions, then those of its issuance. -/
def FoundTx.Sound (f : FoundTx P) : Prop :=
  Ordered f.tx 0 ((P.extractOutputs f.tx.tx).map P.extractCmx ++ f.issuance.cmxs) f.notes

theorem findTxs_sound (hP : P.Lawful) (assetBaseOf : AssetBaseOf) (keys : List (Key P))
    (ts : List (TxAt H)) (fs : List (FoundTx P)) (hf : findTxs assetBaseOf keys ts = .ok fs) :
    ∀ f ∈ fs, f.Sound := by
  induction ts generalizing fs with
  | nil => simp [findTxs, flatMapM] at hf; subst hf; simp
  | cons t ts ih =>
    obtain ⟨a, i, gs, ha, hi, hg, rfl⟩ := (findTxs_cons_ok _ _ _ _ _).1 hf
    rw [List.forall_mem_cons]
    refine ⟨?_, ih gs hg⟩
    have h1 := decryptTx_ordered hP keys t a ha
    have h2 := issuanceTx_ordered hP assetBaseOf keys t i hi
    refine h1.append ?_
    simpa using h2

/-! ### Sorting -/

theorem FoundTx.Sound.pairwise {f : FoundTx P} (hf : f.Sound) : f.notes.Pairwise noteLe := by
  rw [List.pairwise_iff_forall_sublist]
  intro a b hab
  have ha := hf.ofTx a (hab.subset (by simp))
  have hb := hf.ofTx b (hab.subset (by simp))
  have hv := List.pairwise_iff_forall_sublist.1 hf.sorted hab
  right
  exact ⟨ha.1.trans hb.1.symm, Or.inr ⟨ha.2.trans hb.2.symm, hv⟩⟩

/-- Sorting puts the notes of a chunk into chain order. -/
theorem sort_chain (fs : List (FoundTx P)) (hs : ∀ f ∈ fs, f.Sound)
    (hb : fs.Pairwise fun f g => f.tx.Before g.tx) :
    (fs.flatMap FoundTx.actions ++ fs.flatMap fun f => f.issuance.found).insertionSort noteLe =
      fs.flatMap FoundTx.notes := by
  induction fs with
  | nil => rfl
  | cons f fs ih =>
    rw [List.forall_mem_cons] at hs
    rw [List.pairwise_cons] at hb
    let p : Found P → Bool := fun n => decide (Found.OfTx f.tx n)
    have hfirst : ∀ n ∈ f.notes, p n = true := fun n hn => decide_eq_true (hs.1.ofTx n hn)
    have hlater : ∀ g ∈ fs, ∀ n ∈ g.notes, p n = false := by
      intro g hg n hn
      apply decide_eq_false
      intro hof
      have hog := (hs.2 g hg).ofTx n hn
      exact (hb.1 g hg).key_ne (Prod.ext (hof.1.symm.trans hog.1) (hof.2.symm.trans hog.2))
    have hla : ∀ n ∈ fs.flatMap FoundTx.actions, p n = false := by
      intro n hn
      obtain ⟨g, hg, hn⟩ := List.mem_flatMap.1 hn
      exact hlater g hg n (List.mem_append_left _ hn)
    have hli : ∀ n ∈ fs.flatMap (fun f => f.issuance.found), p n = false := by
      intro n hn
      obtain ⟨g, hg, hn⟩ := List.mem_flatMap.1 hn
      exact hlater g hg n (List.mem_append_right _ hn)
    have hfa : ∀ n ∈ f.actions, p n = true := fun n hn => hfirst n (List.mem_append_left _ hn)
    have hfi : ∀ n ∈ f.issuance.found, p n = true :=
      fun n hn => hfirst n (List.mem_append_right _ hn)
    have hsplit := insertionSort_split noteLe p
      ((f :: fs).flatMap FoundTx.actions ++ (f :: fs).flatMap fun f => f.issuance.found) ?_
    · -- the first transaction's notes are the early class
      obtain ⟨h1, h2⟩ := filter_interleave p hfa hla hfi hli
      rw [hsplit, List.flatMap_cons, List.flatMap_cons, h1, h2, ih hs.2 hb.2, List.flatMap_cons]
      congr 1
      exact hs.1.pairwise.insertionSort_eq
    · intro x hx y hy hpx hpy
      have hof : Found.OfTx f.tx x := of_decide_eq_true hpx
      have hbefore : ∃ g ∈ fs, Found.OfTx g.tx y := by
        simp only [List.flatMap_cons, List.mem_append] at hy
        rcases hy with (hy | hy) | (hy | hy)
        · rw [hfa y hy] at hpy; simp at hpy
        · obtain ⟨g, hg, hy⟩ := List.mem_flatMap.1 hy
          exact ⟨g, hg, (hs.2 g hg).ofTx y (List.mem_append_left _ hy)⟩
        · rw [hfi y hy] at hpy; simp at hpy
        · obtain ⟨g, hg, hy⟩ := List.mem_flatMap.1 hy
          exact ⟨g, hg, (hs.2 g hg).ofTx y (List.mem_append_right _ hy)⟩
      obtain ⟨g, hg, hog⟩ := hbefore
      have hbg := hb.1 g hg
      unfold Found.OfTx at hof hog
      unfold TxAt.Before at hbg
      unfold noteLe
      omega

end ZcashSdk.Shielded
