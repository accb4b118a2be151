/-
  Zumy.Lib.OrdMap — lookups in ordered maps.

  One lemma per update for maps whose comparator decides equality, each an `if` on the
  key looked up, so that a proof about such a map never meets the comparator.
  `card_keys_toFinset` counts a map's entries as a finite set of keys. `mem_set_insert` and
  `mem_set_erase` are the same for ordered sets.
-/
import Mathlib.Data.Finset.Card

namespace Zumy.Lib

variable {K V : Type*} {cmp : K → K → Ordering} [Std.TransCmp cmp]
variable {m : Std.TreeMap K V cmp} {k a : K} {v : V}

def rekey {K' : Type*} {cmp' : K' → K' → Ordering} (f : K → Option K') (m : Std.TreeMap K V cmp) : Std.TreeMap K' V cmp' :=
  m.toList.foldl (fun acc kv => (f kv.1).elim acc fun k => acc.insert k kv.2) ∅

theorem nodup_toList : m.toList.Nodup := by
  apply List.Nodup.of_map Prod.fst
  rw [Std.TreeMap.map_fst_toList_eq_keys]
  exact Std.TreeMap.nodup_keys

theorem contains_iff : m.contains k = true ↔ ∃ v, m[k]? = some v := by
  rw [← Std.TreeMap.isSome_getElem?_eq_contains, Option.isSome_iff_exists]

theorem contains_eq_false_iff : m.contains k = false ↔ m[k]? = none := by
  rw [← Std.TreeMap.isSome_getElem?_eq_contains, Option.isSome_eq_false_iff, Option.isNone_iff_eq_none]

theorem eq_none_iff_of_isSome_eq {α β : Type*} {x : Option α} {y : Option β} (h : x.isSome = y.isSome) :
    x = none ↔ y = none := by
  cases x <;> cases y <;> simp_all

omit [Std.TransCmp cmp] in
theorem insertIfNew_eq_self (v : V) (h : m.contains k = true) : m.insertIfNew k v = m := by
  let _ : Ord K := ⟨cmp⟩
  obtain ⟨⟨inner, hwf⟩⟩ := m
  have hin : (inner.insertIfNew k v hwf.balanced).impl = inner := by
    unfold Std.DTreeMap.Internal.Impl.insertIfNew
    split
    · rfl
    · contradiction
  simp only [Std.TreeMap.insertIfNew, Std.DTreeMap.insertIfNew]
  congr 2

section Lookup

variable [Std.LawfulEqCmp cmp] [DecidableEq K]

theorem lookup_insert : (m.insert k v)[a]? = if a = k then some v else m[a]? := by
  simp [Std.TreeMap.getElem?_insert, eq_comm (a := a)]

theorem lookup_insertIfNew : (m.insertIfNew k v)[a]? = if a = k ∧ m[k]? = none then some v else m[a]? := by
  simp [Std.TreeMap.getElem?_insertIfNew, eq_comm (a := a)]

theorem lookup_erase : (m.erase k)[a]? = if a = k then none else m[a]? := by
  simp [Std.TreeMap.getElem?_erase, eq_comm (a := a)]

theorem of_lookup_erase (h : (m.erase k)[a]? = some v) : m[a]? = some v := by
  rw [lookup_erase] at h
  split at h
  · cases h
  · exact h

theorem of_lookup_insertIfNew {w : V} (h : (m.insertIfNew k v)[a]? = some w) : (a = k ∧ w = v) ∨ m[a]? = some w := by
  rw [lookup_insertIfNew] at h
  split at h
  · rename_i hnew
    exact .inl ⟨hnew.1, (Option.some.inj h).symm⟩
  · exact .inr h

theorem lookup_modify {f : V → V} : (m.modify k f)[a]? = if a = k then m[k]?.map f else m[a]? := by
  simp [Std.TreeMap.getElem?_modify, eq_comm (a := a)]

omit [DecidableEq K] in
theorem lookup_filter {p : K → V → Bool} : (m.filter p)[a]? = m[a]?.filter (p a) := by
  simp [Std.TreeMap.getElem?_filter]

theorem lookup_foldl_erase (ks : List K) :
    (ks.foldl (fun m k => m.erase k) m)[a]? = if a ∈ ks then none else m[a]? := by
  induction ks generalizing m with
  | nil => simp
  | cons k ks ih =>
    rw [List.foldl_cons, ih, lookup_erase]
    by_cases hk : a = k <;> simp [hk]

theorem lookup_foldl_insertIfNew (ks : List K) :
    (ks.foldl (fun m k => m.insertIfNew k v) m)[a]? = m[a]?.or (if a ∈ ks then some v else none) := by
  induction ks generalizing m with
  | nil => simp
  | cons k ks ih =>
    rw [List.foldl_cons, ih, lookup_insertIfNew]
    by_cases hk : a = k
    · subst hk
      cases h : m[a]? <;> simp
    · simp [hk]

omit [Std.LawfulEqCmp cmp] in
theorem card_keys_toFinset : m.keys.toFinset.card = m.size := by
  rw [List.toFinset_card_of_nodup Std.TreeMap.nodup_keys, Std.TreeMap.length_keys]

omit [DecidableEq K] in
theorem lookup_rekey {K' : Type*} {cmp' : K' → K' → Ordering} [Std.TransCmp cmp'] [Std.LawfulEqCmp cmp'] [DecidableEq K']
    {f : K → Option K'} (hf : ∀ a a' b, f a = some b → f a' = some b → a = a') (m : Std.TreeMap K V cmp) (b : K') (v : V) :
    (rekey f m : Std.TreeMap K' V cmp')[b]? = some v ↔ ∃ a, f a = some b ∧ m[a]? = some v := by
  have hlist (l : List (K × V)) (hl : (l.map (·.1)).Nodup) (acc : Std.TreeMap K' V cmp') :
      (l.foldl (fun acc kv => (f kv.1).elim acc fun k => acc.insert k kv.2) acc)[b]? = some v ↔
        (∃ a, f a = some b ∧ (a, v) ∈ l) ∨ ((∀ kv ∈ l, f kv.1 ≠ some b) ∧ acc[b]? = some v) := by
    induction l generalizing acc with
    | nil => simp
    | cons kv l ih =>
      obtain ⟨k, w⟩ := kv
      obtain ⟨hk, hl⟩ := List.nodup_cons.1 hl
      rw [List.foldl_cons, ih hl]
      by_cases hfk : f k = some b
      · -- no other entry of the list goes to `b`
        have hother (a : K) (u : V) (ha : f a = some b) (hin : (a, u) ∈ l) : False :=
          hk (List.mem_map.2 ⟨(a, u), hin, hf a k b ha hfk⟩)
        have hno : ∀ kv ∈ l, f kv.1 ≠ some b := fun kv hkv hkb => hother kv.1 kv.2 hkb hkv
        simp only [hfk, Option.elim_some, lookup_insert, if_true, Option.some.injEq]
        constructor
        · intro h
          rcases h with ⟨a, ha, hin⟩ | ⟨-, rfl⟩
          · exact absurd (hother a v ha hin) not_false
          · exact .inl ⟨k, hfk, by simp⟩
        · intro h
          rcases h with ⟨a, ha, hin⟩ | ⟨hall, -⟩
          · rcases List.mem_cons.1 hin with heq | hin
            · exact .inr ⟨hno, (Prod.mk.inj heq).2.symm⟩
            · exact absurd (hother a v ha hin) not_false
          · exact absurd hfk (hall (k, w) (by simp))
      · have hacc : ((f k).elim acc fun k => acc.insert k w)[b]? = acc[b]? := by
          cases hk' : f k with
          | none => rfl
          | some b' =>
            rw [Option.elim_some, lookup_insert, if_neg]
            rintro rfl
            exact hfk hk'
        simp only [hacc, List.mem_cons, forall_eq_or_imp, ne_eq, hfk, not_false_eq_true, true_and]
        refine or_congr_left ⟨fun ⟨a, ha, hin⟩ => ⟨a, ha, .inr hin⟩, ?_⟩
        intro h
        rcases h with ⟨a, ha, heq | hin⟩
        · rw [(Prod.mk.inj heq).1] at ha
          exact absurd ha hfk
        · exact ⟨a, ha, hin⟩
  unfold rekey
  rw [hlist m.toList (by rw [Std.TreeMap.map_fst_toList_eq_keys]; exact Std.TreeMap.nodup_keys)]
  simp [Std.TreeMap.mem_toList_iff_getElem?_eq_some]

/-- A loop over a map's entries that treats each key of another map by itself. -/
theorem lookup_foldl_toList {W : Type*} {t : Std.TreeMap K V cmp} {m : Std.TreeMap K W cmp} (g : V → Option W → Option W)
    {f : Std.TreeMap K W cmp → K × V → Std.TreeMap K W cmp}
    (hf : ∀ m kv a, (f m kv)[a]? = if a = kv.1 then g kv.2 m[a]? else m[a]?)
    (a : K) : (t.toList.foldl f m)[a]? = t[a]?.elim m[a]? fun v => g v m[a]? := by
  have hout (l : List (K × V)) (m : Std.TreeMap K W cmp) (ha : a ∉ l.map (·.1)) : (l.foldl f m)[a]? = m[a]? := by
    induction l generalizing m with
    | nil => rfl
    | cons kv l ih =>
      rw [List.map_cons, List.mem_cons, not_or] at ha
      rw [List.foldl_cons, ih _ ha.2, hf, if_neg ha.1]
  have hin (l : List (K × V)) (m : Std.TreeMap K W cmp) (v : V) (hl : (l.map (·.1)).Nodup) (ha : (a, v) ∈ l) :
      (l.foldl f m)[a]? = g v m[a]? := by
    induction l generalizing m with
    | nil => cases ha
    | cons kv l ih =>
      rw [List.map_cons, List.nodup_cons] at hl
      rcases List.mem_cons.1 ha with heq | ha
      · subst heq
        rw [List.foldl_cons, hout l _ hl.1, hf, if_pos rfl]
      · have hne : a ≠ kv.1 := fun heq => hl.1 (heq ▸ List.mem_map.2 ⟨(a, v), ha, rfl⟩)
        rw [List.foldl_cons, ih _ hl.2 ha, hf, if_neg hne]
  cases hv : t[a]? with
  | none =>
    apply hout
    rw [Std.TreeMap.map_fst_toList_eq_keys, Std.TreeMap.mem_keys, ← Std.TreeMap.contains_iff_mem, Bool.not_eq_true]
    exact contains_eq_false_iff.2 hv
  | some v =>
    apply hin
    · rw [Std.TreeMap.map_fst_toList_eq_keys]
      exact Std.TreeMap.nodup_keys
    · exact Std.TreeMap.mem_toList_iff_getElem?_eq_some.2 hv

end Lookup

section Sets

variable [Std.LawfulEqCmp cmp] {t : Std.TreeSet K cmp}

theorem mem_set_insert : a ∈ t.insert k ↔ a = k ∨ a ∈ t := by
  rw [Std.TreeSet.mem_insert, Std.LawfulEqCmp.compare_eq_iff_eq, eq_comm]

theorem mem_set_erase : a ∈ t.erase k ↔ a ≠ k ∧ a ∈ t := by
  rw [Std.TreeSet.mem_erase, ne_eq, Std.LawfulEqCmp.compare_eq_iff_eq, eq_comm, ne_eq]

end Sets

end Zumy.Lib
