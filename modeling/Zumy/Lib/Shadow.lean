/-
  Zumy.Lib.Shadow — an index that is kept beside a table.

  Each entry of the table gives rows of the index; `Shadows rows entries m` says that `m` has
  these rows and no others. Where no two entries give the same key, the rows of one entry can
  be taken out by their keys.

  - `Shadows.insert`, `Shadows.erase`: a new entry and its rows, and one that leaves with its.
  - `Shadows.eq_none_iff`: what the index does not have.
  - `Shadows.keysApart`: an index whose values tell the entry has no key of two.
-/
import Mathlib.Logic.Function.Basic

namespace Zumy.Lib

variable {ι E κ ν : Type*} [DecidableEq ι] {rows : E → List (κ × ν)} {entries : ι → Option E} {m m' : κ → Option ν}
variable {i : ι} {e : E} {k : κ} {v : ν}

def Shadows (rows : E → List (κ × ν)) (entries : ι → Option E) (m : κ → Option ν) : Prop :=
  ∀ k v, m k = some v ↔ ∃ i e, entries i = some e ∧ (k, v) ∈ rows e

def KeysApart (rows : E → List (κ × ν)) (entries : ι → Option E) : Prop :=
  ∀ i j e f k, entries i = some e → entries j = some f → k ∈ (rows e).map Prod.fst → k ∈ (rows f).map Prod.fst → i = j

theorem mem_keys (h : (k, v) ∈ rows e) : k ∈ (rows e).map Prod.fst := List.mem_map_of_mem h

omit [DecidableEq ι] in
theorem Shadows.eq_none_iff (h : Shadows rows entries m) :
    m k = none ↔ ∀ i e, entries i = some e → k ∉ (rows e).map Prod.fst := by
  constructor
  · intro hnone i e he hk
    obtain ⟨⟨k, v⟩, hkv, rfl⟩ := List.mem_map.1 hk
    rw [(h _ v).2 ⟨i, e, he, hkv⟩] at hnone
    cases hnone
  · intro hno
    cases hm : m k with
    | none => rfl
    | some v =>
      obtain ⟨i, e, he, hkv⟩ := (h k v).1 hm
      exact absurd (mem_keys hkv) (hno i e he)

omit [DecidableEq ι] in
theorem Shadows.keysApart (h : Shadows rows entries m) (owner : ν → ι)
    (howner : ∀ i e k v, entries i = some e → (k, v) ∈ rows e → owner v = i) : KeysApart rows entries := by
  intro i j e f k he hf hke hkf
  obtain ⟨⟨k, v⟩, hv, rfl⟩ := List.mem_map.1 hke
  obtain ⟨⟨k', w⟩, hw, hk'⟩ := List.mem_map.1 hkf
  obtain rfl : k' = k := hk'
  have hvw : some v = some w := ((h _ v).2 ⟨i, e, he, hv⟩).symm.trans ((h _ w).2 ⟨j, f, hf, hw⟩)
  cases hvw
  rw [← howner i e _ v he hv, howner j f _ v hf hw]

theorem Shadows.insert (h : Shadows rows entries m) (hfree : entries i = none)
    (hm : ∀ k v, m' k = some v ↔ m k = some v ∨ (k, v) ∈ rows e) : Shadows rows (Function.update entries i (some e)) m' := by
  intro k v
  rw [hm, h]
  constructor
  · intro hkv
    rcases hkv with ⟨j, f, hf, hkv⟩ | hkv
    · have hne : j ≠ i := by
        rintro rfl
        rw [hfree] at hf
        cases hf
      exact ⟨j, f, by rwa [Function.update_of_ne hne], hkv⟩
    · exact ⟨i, e, Function.update_self i (some e) entries, hkv⟩
  · rintro ⟨j, f, hf, hkv⟩
    by_cases hj : j = i
    · rw [hj, Function.update_self] at hf
      cases hf
      exact .inr hkv
    · rw [Function.update_of_ne hj] at hf
      exact .inl ⟨j, f, hf, hkv⟩

theorem Shadows.erase [DecidableEq κ] (h : Shadows rows entries m) (hapart : KeysApart rows entries) (he : entries i = some e)
    (hm : ∀ k, m' k = if k ∈ (rows e).map Prod.fst then none else m k) : Shadows rows (Function.update entries i none) m' := by
  intro k v
  rw [hm]
  constructor
  · intro hkv
    split at hkv
    · cases hkv
    next hk =>
      obtain ⟨j, f, hf, hrow⟩ := (h k v).1 hkv
      have hne : j ≠ i := by
        rintro rfl
        cases hf.symm.trans he
        exact hk (mem_keys hrow)
      exact ⟨j, f, by rwa [Function.update_of_ne hne], hrow⟩
  · rintro ⟨j, f, hf, hkv⟩
    by_cases hj : j = i
    · rw [hj, Function.update_self] at hf
      cases hf
    · rw [Function.update_of_ne hj] at hf
      have hk : k ∉ (rows e).map Prod.fst := fun hk => hj (hapart j i f e k hf he (mem_keys hkv) hk)
      rw [if_neg hk]
      exact (h k v).2 ⟨j, f, hf, hkv⟩

end Zumy.Lib
