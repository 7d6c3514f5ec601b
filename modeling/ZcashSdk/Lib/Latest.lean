import Mathlib

set_option autoImplicit false

/-!
# Maps that keep the latest value of a key

A map is the list of its keys with their values. Values that arrive one after another are
put into it under their keys, where a value gives way only to one with a greater time.
-/
namespace ZcashSdk.Latest

variable {K V T : Type} [LinearOrder T]

/-- The first among the entries of its key that have the greatest time. -/
def IsLatest (time : V → T) (es : List (K × V)) (e : K × V) : Prop :=
  ∃ before after, es = before ++ e :: after ∧
    (∀ v, (e.1, v) ∈ before → time v < time e.2) ∧ ∀ v, (e.1, v) ∈ after → time v ≤ time e.2

namespace IsLatest
variable {time : V → T}

theorem mem {es : List (K × V)} {e : K × V} (h : IsLatest time es e) : e ∈ es := by
  obtain ⟨before, after, rfl, -, -⟩ := h
  exact List.mem_append_right _ List.mem_cons_self

theorem time_le {es : List (K × V)} {e : K × V} (h : IsLatest time es e) {v : V}
    (hv : (e.1, v) ∈ es) : time v ≤ time e.2 := by
  obtain ⟨before, after, rfl, hbefore, hafter⟩ := h
  rcases List.mem_append.1 hv with hv | hv
  · exact (hbefore v hv).le
  rcases List.mem_cons.1 hv with hv | hv
  · rw [← hv]
  · exact hafter v hv

theorem snoc {es : List (K × V)} {e new : K × V} (h : IsLatest time es e)
    (hnew : new.1 = e.1 → time new.2 ≤ time e.2) : IsLatest time (es ++ [new]) e := by
  obtain ⟨before, after, rfl, hbefore, hafter⟩ := h
  refine ⟨before, after ++ [new], by simp, hbefore, fun v hv => ?_⟩
  rcases List.mem_append.1 hv with hv | hv
  · exact hafter v hv
  · have hv := List.mem_singleton.1 hv
    subst hv
    exact hnew rfl

theorem last {es : List (K × V)} {e : K × V} (h : ∀ v, (e.1, v) ∈ es → time v < time e.2) :
    IsLatest time (es ++ [e]) e :=
  ⟨es, [], rfl, h, fun _ hv => absurd hv List.not_mem_nil⟩

end IsLatest

variable [DecidableEq K]

def modifyKey (m : List (K × V)) (k : K) (modify : V → V) : List (K × V) :=
  m.map fun e => if e.1 = k then (e.1, modify e.2) else e

def entryOr (m : List (K × V)) (k : K) (modify : V → V) (v : V) : List (K × V) :=
  if k ∈ m.map Prod.fst then modifyKey m k modify else m ++ [(k, v)]

theorem keys_modifyKey (m : List (K × V)) (k : K) (modify : V → V) :
    (modifyKey m k modify).map Prod.fst = m.map Prod.fst := by
  rw [modifyKey, List.map_map]
  apply List.map_congr_left
  intro e _
  simp only [Function.comp]
  split <;> rfl

theorem mem_keys_entryOr {m : List (K × V)} {k j : K} {modify : V → V} {v : V} :
    j ∈ (entryOr m k modify v).map Prod.fst ↔ j ∈ m.map Prod.fst ∨ j = k := by
  unfold entryOr
  split
  next hk =>
    rw [keys_modifyKey]
    exact ⟨Or.inl, fun h => h.elim id fun hj => hj ▸ hk⟩
  next => simp

theorem nodup_keys_entryOr {m : List (K × V)} (h : (m.map Prod.fst).Nodup) (k : K)
    (modify : V → V) (v : V) : ((entryOr m k modify v).map Prod.fst).Nodup := by
  unfold entryOr
  split
  next => rwa [keys_modifyKey]
  next hk =>
    rw [List.map_append, List.nodup_append]
    refine ⟨h, List.nodup_singleton _, ?_⟩
    rintro a ha b hb rfl
    rw [List.map_singleton, List.mem_singleton] at hb
    subst hb
    exact hk ha

theorem of_mem_entryOr {m : List (K × V)} {k : K} {modify : V → V} {v : V} {e : K × V}
    (he : e ∈ entryOr m k modify v) :
    (e.1 ≠ k ∧ e ∈ m) ∨ (∃ old, (k, old) ∈ m ∧ e = (k, modify old)) ∨
      (k ∉ m.map Prod.fst ∧ e = (k, v)) := by
  unfold entryOr at he
  split at he
  next =>
    obtain ⟨e', he', rfl⟩ := List.mem_map.1 he
    split
    next hk => exact .inr (.inl ⟨e'.2, hk ▸ he', by rw [hk]⟩)
    next hk => exact .inl ⟨hk, he'⟩
  next hk =>
    rcases List.mem_append.1 he with he | he
    · exact .inl ⟨fun h => hk (h ▸ List.mem_map_of_mem he), he⟩
    · exact .inr (.inr ⟨hk, List.mem_singleton.1 he⟩)

variable (time : V → T)

/-- A value that gives way only to a greater time. -/
def put (m : List (K × V)) (e : K × V) : List (K × V) :=
  entryOr m e.1 (fun existing => if time e.2 > time existing then e.2 else existing) e.2

def latest (es : List (K × V)) : List (K × V) := es.foldl (put time) []

/-- A map has the keys that arrived, each once and with its latest value. -/
structure Deduped (es m : List (K × V)) : Prop where
  nodup : (m.map Prod.fst).Nodup
  keys : ∀ k, k ∈ m.map Prod.fst ↔ k ∈ es.map Prod.fst
  latest : ∀ e ∈ m, IsLatest time es e

variable {time}

theorem Deduped.put {es m : List (K × V)} (h : Deduped time es m) (new : K × V) :
    Deduped time (es ++ [new]) (put time m new) where
  nodup := nodup_keys_entryOr h.nodup ..
  keys k := by
    rw [Latest.put, mem_keys_entryOr, h.keys]
    simp [eq_comm]
  latest e he := by
    rcases of_mem_entryOr he with ⟨hne, hm⟩ | ⟨old, hold, rfl⟩ | ⟨hk, rfl⟩
    · exact (h.latest e hm).snoc fun heq => absurd heq.symm hne
    · have hlatest := h.latest _ hold
      split
      next hlt => exact IsLatest.last fun v hv => (hlatest.time_le hv).trans_lt hlt
      next hge => exact hlatest.snoc fun _ => not_lt.1 hge
    · rw [h.keys] at hk
      exact IsLatest.last fun v hv => absurd (List.mem_map_of_mem hv) hk

theorem deduped_latest (es : List (K × V)) : Deduped time es (latest time es) := by
  induction es using List.reverseRecOn with
  | nil => exact ⟨List.nodup_nil, fun _ => Iff.rfl, fun e he => absurd he List.not_mem_nil⟩
  | append_singleton es e ih =>
    rw [latest, List.foldl_append]
    exact ih.put e

omit [DecidableEq K] in
theorem Deduped.eq_singleton {es m : List (K × V)} (h : Deduped time es m) {k : K} {v : V}
    (hkeys : ∀ e ∈ es, e.1 = k) (hv : (k, v) ∈ es)
    (htime : ∀ w, (k, w) ∈ es → w ≠ v → time w < time v) : m = [(k, v)] := by
  have hkey : ∀ e ∈ m, e = (k, v) := by
    intro e he
    have hlatest := h.latest e he
    obtain rfl := hkeys e hlatest.mem
    have heq : e.2 = v := by
      by_contra hne
      exact absurd (htime e.2 hlatest.mem hne) (not_lt.2 (hlatest.time_le hv))
    rw [← heq]
  match m with
  | [] => exact absurd ((h.keys k).2 (List.mem_map_of_mem hv)) List.not_mem_nil
  | [e] => rw [hkey e List.mem_cons_self]
  | e :: e' :: rest =>
    have hnodup := h.nodup
    rw [hkey e List.mem_cons_self, hkey e' (List.mem_cons_of_mem _ List.mem_cons_self)] at hnodup
    exact absurd List.mem_cons_self (List.nodup_cons.1 hnodup).1

end ZcashSdk.Latest
