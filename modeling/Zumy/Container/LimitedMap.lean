/-
  Zumy.Container.LimitedMap — limitedmap.h: a map of at most `nMaxSize` elements, and `rmap`,
  its elements by their values.

  An iterator of the map stands as its key. A failed assertion, or a look at the first element
  of an empty `rmap`, is `none`.

  - `step_valid`: after every operation `rmap` inverts the map, which is within its bound.
  - `run_isSome_iff`: nothing fails but a bound of 0.
-/
import Zumy.Lib.Multimap
import Zumy.Lib.Run
import Zumy.Primitives

namespace Zumy.Container

open Zumy.Lib

structure LimitedMap (K V : Type) [Ord K] where
  map : Map K V
  rmap : Multimap V K
  nMaxSize : Nat

variable {K V : Type} [Ord K] [LinearOrder V] [DecidableEq K]

namespace LimitedMap

def new (nMaxSizeIn : Nat) : Option (LimitedMap K V) := if 0 < nMaxSizeIn then some ⟨∅, [], nMaxSizeIn⟩ else none

def insert (m : LimitedMap K V) (x : K × V) : Option (LimitedMap K V) :=
  if m.map.contains x.1 then some m
  else
    let map := m.map.insert x.1 x.2
    if m.nMaxSize < map.size then
      match m.rmap with
      | [] => none
      | first :: rmap => some { m with map := map.erase first.2, rmap := Multimap.insert rmap (x.2, x.1) }
    else some { m with map := map, rmap := Multimap.insert m.rmap (x.2, x.1) }

def erase (m : LimitedMap K V) (k : K) : Option (LimitedMap K V) :=
  match m.map[k]? with
  | none => some m
  | some v => if (v, k) ∈ m.rmap then some { m with rmap := m.rmap.erase (v, k), map := m.map.erase k } else none

/-- Of the element with this key; without one it is `end()`. -/
def update (m : LimitedMap K V) (itIn : K) (v : V) : Option (LimitedMap K V) :=
  match m.map[itIn]? with
  | none => some m
  | some old =>
    if (old, itIn) ∈ m.rmap then
      some { m with rmap := Multimap.insert (m.rmap.erase (old, itIn)) (v, itIn), map := m.map.insert itIn v }
    else none

/-- The loop of `max_size`: the first elements of `rmap` go. -/
def shrink (s : Nat) (map : Map K V) : Multimap V K → Option (Map K V × Multimap V K)
  | [] => if s < map.size then none else some (map, [])
  | first :: rmap => if s < map.size then shrink s (map.erase first.2) rmap else some (map, first :: rmap)

def maxSize (m : LimitedMap K V) (s : Nat) : Option (LimitedMap K V) :=
  if 0 < s then (shrink s m.map m.rmap).map fun (map, rmap) => ⟨map, rmap, s⟩ else none

inductive Operation (K V : Type) where
  | insert (x : K × V)
  | erase (k : K)
  | update (itIn : K) (v : V)
  | maxSize (s : Nat)

def step (m : LimitedMap K V) : Operation K V → Option (LimitedMap K V)
  | .insert x => m.insert x
  | .erase k => m.erase k
  | .update itIn v => m.update itIn v
  | .maxSize s => m.maxSize s

/-! ## The two containers -/

structure Valid (m : LimitedMap K V) : Prop where
  inverse : Inverse m.map m.rmap
  size : m.map.size ≤ m.nMaxSize
  pos : 0 < m.nMaxSize

variable {m m' : LimitedMap K V} {k : K} {v : V} {x : K × V}

omit [LinearOrder V] [DecidableEq K] in
theorem size_new {nMaxSizeIn : Nat} (h : new nMaxSizeIn = some m) : m.map.size = 0 := by
  unfold new at h
  split at h
  · cases h
    rfl
  · cases h

structure Adds (m : LimitedMap K V) (x : K × V) (m' : LimitedMap K V) : Prop where
  room : m.map.size < m.nMaxSize
  size : m'.map.size = m.map.size + 1
  lookup : ∀ k : K, m'.map[k]? = if k = x.1 then some x.2 else m.map[k]?

/-- A lowest element makes room for the new one, whatever that one's value is. -/
structure Evicts (m : LimitedMap K V) (x : K × V) (first : V × K) (m' : LimitedMap K V) : Prop where
  full : m.map.size = m.nMaxSize
  first_mem : m.map[first.2]? = some first.1
  lowest : ∀ (k : K) (v : V), m.map[k]? = some v → first.1 ≤ v
  size : m'.map.size = m.map.size
  lookup : ∀ k : K, m'.map[k]? = if k = x.1 then some x.2 else if k = first.2 then none else m.map[k]?

section

variable [Std.TransOrd K] [Std.LawfulEqOrd K]

omit [DecidableEq K] in
omit [Std.TransOrd K] [Std.LawfulEqOrd K] in
theorem valid_new {nMaxSizeIn : Nat} (h : new nMaxSizeIn = some m) : m.Valid := by
  unfold new at h
  split at h
  · next hpos =>
    cases h
    exact ⟨inverse_empty, Nat.zero_le _, hpos⟩
  · cases h

omit [Std.LawfulEqOrd K] [DecidableEq K] in
theorem insert_known (h : m.map[x.1]? = some v) : m.insert x = some m := by
  unfold insert
  rw [if_pos (contains_iff.2 ⟨v, h⟩)]

theorem insert_new (h : m.Valid) (hx : m.map[x.1]? = none) :
    ∃ m', m.insert x = some m' ∧ m'.Valid ∧ m'.nMaxSize = m.nMaxSize ∧ (Adds m x m' ∨ ∃ first, Evicts m x first m') := by
  have hcontains : m.map.contains x.1 = false := contains_eq_false_iff.2 hx
  have hsize : (m.map.insert x.1 x.2).size = m.map.size + 1 := by
    rw [Std.TreeMap.size_insert, hcontains, if_neg Bool.false_ne_true]
  have hinverse := h.inverse.insert (v := x.2) hx
  unfold insert
  rw [hcontains, if_neg Bool.false_ne_true]
  dsimp only
  rw [hsize]
  by_cases hfull : m.nMaxSize < m.map.size + 1
  · have heq : m.map.size = m.nMaxSize := by
      have hle := h.size
      omega
    rw [if_pos hfull]
    cases hr : m.rmap with
    | nil =>
      have hlength := h.inverse.length_eq
      have hpos := h.pos
      rw [hr, List.length_nil] at hlength
      omega
    | cons first rmap =>
      have hinv := h.inverse
      rw [hr] at hinv
      have hfirst : m.map[first.2]? = some first.1 := hinv.mem_iff.1 List.mem_cons_self
      have hne : first.2 ≠ x.1 := fun hkey => by
        rw [hkey, hx] at hfirst
        cases hfirst
      have hgone : (m.map.erase first.2)[x.1]? = none := by rw [lookup_erase, if_neg (Ne.symm hne), hx]
      have hlookup : ∀ k : K, ((m.map.insert x.1 x.2).erase first.2)[k]? =
          if k = x.1 then some x.2 else if k = first.2 then none else m.map[k]? := by
        intro k
        rw [lookup_erase, lookup_insert]
        by_cases hk : k = x.1
        · rw [if_pos hk, if_pos hk, if_neg (hk ▸ Ne.symm hne)]
        · rw [if_neg hk, if_neg hk]
      have hsize' : ((m.map.insert x.1 x.2).erase first.2).size = m.map.size := by
        rw [Std.TreeMap.size_erase, contains_iff.2 ⟨first.1, ?_⟩, if_pos rfl, hsize,
          Nat.add_sub_cancel]
        rw [lookup_insert, if_neg hne]
        exact hfirst
      refine ⟨_, rfl, ⟨?_, hsize'.le.trans h.size, h.pos⟩, rfl, .inr ⟨first, heq, hfirst, ?_, hsize', hlookup⟩⟩
      · have hinserted := hinv.tail.insert (v := x.2) hgone
        refine inverse_of_mem hinserted.sorted hinserted.nodup fun v k => ?_
        rw [hinserted.mem_iff, hlookup, lookup_insert, lookup_erase]
      · exact fun k v hk => hinv.head_le hk
  · rw [if_neg hfull]
    refine ⟨_, rfl, ⟨hinverse, ?_, h.pos⟩, rfl, .inl ⟨by omega, hsize, fun k => lookup_insert⟩⟩
    show (m.map.insert x.1 x.2).size ≤ m.nMaxSize
    omega

theorem erase_valid (h : m.Valid) (k : K) : ∃ m', m.erase k = some m' ∧ m'.Valid := by
  unfold erase
  split
  · exact ⟨m, rfl, h⟩
  · next v hv =>
    rw [if_pos (h.inverse.mem_iff.2 hv)]
    refine ⟨_, rfl, h.inverse.erase hv, ?_, h.pos⟩
    exact Std.TreeMap.size_erase_le.trans h.size

theorem update_valid (h : m.Valid) (itIn : K) (v : V) : ∃ m', m.update itIn v = some m' ∧ m'.Valid := by
  unfold update
  split
  · exact ⟨m, rfl, h⟩
  · next old hold =>
    rw [if_pos (h.inverse.mem_iff.2 hold)]
    have hgone : (m.map.erase itIn)[itIn]? = none := by rw [lookup_erase, if_pos rfl]
    have hinserted := (h.inverse.erase hold).insert (v := v) hgone
    refine ⟨_, rfl, ?_, ?_, h.pos⟩
    · refine inverse_of_mem hinserted.sorted hinserted.nodup fun w k => ?_
      rw [hinserted.mem_iff, lookup_insert, lookup_insert, lookup_erase]
      by_cases hk : k = itIn
      · rw [if_pos hk, if_pos hk]
      · rw [if_neg hk, if_neg hk, if_neg hk]
    · show (m.map.insert itIn v).size ≤ m.nMaxSize
      rw [Std.TreeMap.size_insert, contains_iff.2 ⟨old, hold⟩, if_pos rfl]
      exact h.size

/-- The induction is on `rmap`: without its first element it inverts the map without that one. -/
theorem shrink_inverse {s : Nat} {map : Map K V} {rmap : Multimap V K} (h : Inverse map rmap) :
    ∃ map' rmap', shrink s map rmap = some (map', rmap') ∧ Inverse map' rmap' ∧ map'.size ≤ s := by
  induction rmap generalizing map with
  | nil =>
    have hlength := h.length_eq
    rw [List.length_nil] at hlength
    refine ⟨map, [], ?_, h, by omega⟩
    rw [shrink, if_neg (by omega)]
  | cons first rmap ih =>
    rw [shrink]
    split
    · exact ih h.tail
    · exact ⟨map, first :: rmap, rfl, h, by omega⟩

theorem maxSize_valid (h : m.Valid) {s : Nat} (hs : 0 < s) : ∃ m', m.maxSize s = some m' ∧ m'.Valid := by
  obtain ⟨map', rmap', hshrink, hinverse, hsize⟩ := shrink_inverse (s := s) h.inverse
  refine ⟨⟨map', rmap', s⟩, ?_, hinverse, hsize, hs⟩
  unfold maxSize
  rw [if_pos hs, hshrink]
  rfl

def Operation.Allowed : Operation K V → Prop
  | .maxSize s => 0 < s
  | _ => True

theorem step_valid (h : m.Valid) {e : Operation K V} (he : e.Allowed) : ∃ m', m.step e = some m' ∧ m'.Valid := by
  cases e with
  | insert x =>
    cases hx : m.map[x.1]? with
    | none =>
      obtain ⟨m', hm', hvalid, -⟩ := insert_new h hx
      exact ⟨m', hm', hvalid⟩
    | some v => exact ⟨m, insert_known hx, h⟩
  | erase k => exact erase_valid h k
  | update itIn v => exact update_valid h itIn v
  | maxSize s => exact maxSize_valid h he

theorem step_isSome_iff (h : m.Valid) (e : Operation K V) : (m.step e).isSome ↔ e.Allowed := by
  constructor
  · intro hsome
    cases e with
    | maxSize s =>
      by_contra hs
      have hs' : ¬ 0 < s := hs
      have hnone : m.maxSize s = none := if_neg hs'
      rw [step, hnone] at hsome
      cases hsome
    | _ => trivial
  · intro he
    obtain ⟨m', hm', -⟩ := step_valid h he
    rw [hm']
    rfl

/-! ## Runs -/

variable {es : List (Operation K V)}

theorem run_valid (h : m.Valid) (hrun : run step m es = some m') : m'.Valid := by
  refine run_inv Valid (fun m e m' hm hstep => ?_) h hrun
  have he : e.Allowed := by
    rw [← step_isSome_iff hm, hstep]
    rfl
  obtain ⟨m'', hm'', hvalid⟩ := step_valid hm he
  cases hstep.symm.trans hm''
  exact hvalid

theorem run_isSome_iff (h : m.Valid) : (run step m es).isSome ↔ ∀ e ∈ es, e.Allowed := by
  induction es generalizing m with
  | nil => simp
  | cons e es ih =>
    rw [List.forall_mem_cons, ← step_isSome_iff h e, run_cons]
    cases hstep : m.step e with
    | none => simp
    | some m' =>
      have hvalid : m'.Valid := run_valid h (show run step m [e] = some m' by rw [run_cons, hstep]; rfl)
      rw [Option.bind_some, ih hvalid]
      simp

end

/-! ## Insertions -/

variable {l : List (K × V)}

/-- The elements that are kept are of those inserted, and all of them while there is room. -/
structure Inserted (l : List (K × V)) (m : LimitedMap K V) : Prop where
  sub : ∀ (k : K) (v : V), m.map[k]? = some v → (k, v) ∈ l
  size : m.map.size = min l.length m.nMaxSize
  all : l.length ≤ m.nMaxSize → ∀ x ∈ l, m.map[x.1]? = some x.2

/-- As many as there is room for, and none that is not kept has a higher value than one that is. -/
structure Highest (l : List (K × V)) (m : LimitedMap K V) : Prop where
  sub : ∀ (k : K) (v : V), m.map[k]? = some v → (k, v) ∈ l
  size : m.map.size = min l.length m.nMaxSize
  top : ∀ (k : K) (v : V), m.map[k]? = some v → ∀ x ∈ l, m.map[x.1]? = none → x.2 ≤ v

def NotLowest (m : LimitedMap K V) (x : K × V) : Prop :=
  m.map.size = m.nMaxSize → ∃ (k : K) (v : V), m.map[k]? = some v ∧ v ≤ x.2

omit [LinearOrder V] [DecidableEq K] in
theorem Inserted.lookup_new (h : Inserted l m) (hx : x.1 ∉ l.map Prod.fst) : m.map[x.1]? = none := by
  rw [Option.eq_none_iff_forall_ne_some]
  intro v hv
  exact hx (List.mem_map.2 ⟨(x.1, v), h.sub _ _ hv, rfl⟩)

omit [LinearOrder V] in
theorem Inserted.adds (h : Inserted l m) (hadds : Adds m x m') (hmax : m'.nMaxSize = m.nMaxSize)
    (hx : x.1 ∉ l.map Prod.fst) : Inserted (l ++ [x]) m' := by
  have hsize := h.size
  have hroom := hadds.room
  refine ⟨fun k v hk => ?_, ?_, fun hle y hy => ?_⟩
  · rw [hadds.lookup] at hk
    split at hk
    · next heq =>
      cases hk
      rw [heq]
      exact List.mem_append_right l List.mem_cons_self
    · exact List.mem_append_left _ (h.sub k v hk)
  · rw [hadds.size, hsize, hmax, List.length_append, List.length_singleton]
    omega
  · rw [List.length_append, List.length_singleton, hmax] at hle
    rw [hadds.lookup]
    rcases List.mem_append.1 hy with hy | hy
    · rw [if_neg fun heq : y.1 = x.1 => hx (heq ▸ List.mem_map.2 ⟨y, hy, rfl⟩)]
      exact h.all (by omega) y hy
    · rw [List.mem_singleton.1 hy, if_pos rfl]

theorem Inserted.evicts {first : V × K} (h : Inserted l m) (hevicts : Evicts m x first m') (hmax : m'.nMaxSize = m.nMaxSize) :
    Inserted (l ++ [x]) m' := by
  have hsize := h.size
  have hfull := hevicts.full
  refine ⟨fun k v hk => ?_, ?_, fun hle => ?_⟩
  · rw [hevicts.lookup] at hk
    split at hk
    · next heq =>
      cases hk
      rw [heq]
      exact List.mem_append_right l List.mem_cons_self
    · split at hk
      · cases hk
      · exact List.mem_append_left _ (h.sub k v hk)
  · rw [hevicts.size, hsize, hmax, List.length_append, List.length_singleton]
    omega
  · rw [List.length_append, List.length_singleton, hmax] at hle
    omega

theorem highest_adds (hadds : Adds m x m') (hmax : m'.nMaxSize = m.nMaxSize) (h : Inserted l m) (h' : Inserted (l ++ [x]) m') :
    Highest (l ++ [x]) m' := by
  have hsize := h.size
  have hroom := hadds.room
  refine ⟨h'.sub, h'.size, fun k v _ y hy hnone => ?_⟩
  have hlength : (l ++ [x]).length ≤ m'.nMaxSize := by
    rw [List.length_append, List.length_singleton, hmax]
    omega
  rw [h'.all hlength y hy] at hnone
  cases hnone

/-- What makes room was a lowest one: nothing higher is missing if the new one is not lower. -/
theorem highest_evicts_iff {first : V × K} (hevicts : Evicts m x first m') (h : Inserted l m) (htop : Highest l m)
    (h' : Inserted (l ++ [x]) m') (hl : (l.map Prod.fst).Nodup) (hx : x.1 ∉ l.map Prod.fst) :
    Highest (l ++ [x]) m' ↔ first.1 ≤ x.2 := by
  have hfirst : (first.2, first.1) ∈ l := h.sub _ _ hevicts.first_mem
  have hne : first.2 ≠ x.1 := fun heq => hx (heq ▸ List.mem_map.2 ⟨_, hfirst, rfl⟩)
  have hnew : m'.map[x.1]? = some x.2 := by rw [hevicts.lookup, if_pos rfl]
  constructor
  · intro hhigh
    refine hhigh.top x.1 x.2 hnew (first.2, first.1) (List.mem_append_left _ hfirst) ?_
    rw [hevicts.lookup, if_neg hne, if_pos rfl]
  · intro hle
    refine ⟨h'.sub, h'.size, fun k v hk y hy hnone => ?_⟩
    have hfirst_le : first.1 ≤ v := by
      rw [hevicts.lookup] at hk
      split at hk
      · cases hk
        exact hle
      · split at hk
        · cases hk
        · exact hevicts.lowest k v hk
    rcases List.mem_append.1 hy with hy | hy
    · rw [hevicts.lookup, if_neg fun heq : y.1 = x.1 => hx (heq ▸ List.mem_map.2 ⟨y, hy, rfl⟩)] at hnone
      split at hnone
      · next heq =>
        have hsame : y = (first.2, first.1) := List.inj_on_of_nodup_map hl hy hfirst heq
        rw [hsame]
        exact hfirst_le
      · exact (htop.top first.2 first.1 hevicts.first_mem y hy hnone).trans hfirst_le
    · rw [List.mem_singleton.1 hy, hnew] at hnone
      cases hnone

/-! ## Every order of insertions -/

theorem run_inserts_concat : run step m ((l ++ [x]).map .insert) = (run step m (l.map .insert)).bind fun t => t.insert x := by
  rw [List.map_append, run_append]
  congr 1
  funext t
  rw [List.map_singleton, run_cons]
  show (t.insert x).bind (fun t' => run step t' []) = t.insert x
  cases t.insert x <;> rfl

variable [Std.TransOrd K] [Std.LawfulEqOrd K]

theorem inserted_run (h : m.Valid) (hempty : m.map.size = 0) (hl : (l.map Prod.fst).Nodup) :
    ∃ t, run step m (l.map .insert) = some t ∧ t.Valid ∧ t.nMaxSize = m.nMaxSize ∧ Inserted l t := by
  induction l using List.reverseRecOn with
  | nil =>
    refine ⟨m, rfl, h, rfl, fun k v hk => ?_, ?_, fun _ x hx => (by cases hx)⟩
    · have hnil : m.map.contains k = false := Std.TreeMap.contains_of_isEmpty (by rw [Std.TreeMap.isEmpty_eq_size_eq_zero, hempty]; rfl)
      rw [contains_eq_false_iff.1 hnil] at hk
      cases hk
    · rw [hempty, List.length_nil, Nat.zero_min]
  | append_singleton l x ih =>
    rw [List.map_append, List.nodup_append] at hl
    obtain ⟨t, ht, hvalid, hmax, hins⟩ := ih hl.1
    have hx : x.1 ∉ l.map Prod.fst := fun hmem => hl.2.2 x.1 hmem x.1 (List.mem_singleton_self _) rfl
    obtain ⟨t', ht', hvalid', hmax', hcase⟩ := insert_new hvalid (hins.lookup_new hx)
    refine ⟨t', ?_, hvalid', hmax'.trans hmax, ?_⟩
    · rw [run_inserts_concat, ht, Option.bind_some, ht']
    · rcases hcase with hadds | ⟨first, hevicts⟩
      · exact hins.adds hadds hmax' hx
      · exact hins.evicts hevicts hmax'

/-- One more insertion keeps the highest values just when it is not lower than all that are kept. -/
theorem highest_concat_iff {t t' : LimitedMap K V} (hvalid : t.Valid) (hins : Inserted l t) (htop : Highest l t)
    (hl : ((l ++ [x]).map Prod.fst).Nodup) (ht' : t.insert x = some t') : Highest (l ++ [x]) t' ↔ NotLowest t x := by
  rw [List.map_append, List.nodup_append] at hl
  have hx : x.1 ∉ l.map Prod.fst := fun hmem => hl.2.2 x.1 hmem x.1 (List.mem_singleton_self _) rfl
  obtain ⟨t'', ht'', -, hmax, hcase⟩ := insert_new hvalid (hins.lookup_new hx)
  cases ht'.symm.trans ht''
  rcases hcase with hadds | ⟨first, hevicts⟩
  · refine iff_of_true (highest_adds hadds hmax hins (hins.adds hadds hmax hx)) fun hfull => ?_
    have hroom := hadds.room
    omega
  · rw [highest_evicts_iff hevicts hins htop (hins.evicts hevicts hmax) hl.1 hx]
    constructor
    · exact fun hle _ => ⟨first.2, first.1, hevicts.first_mem, hle⟩
    · intro hnot
      obtain ⟨k, v, hk, hv⟩ := hnot hevicts.full
      exact (hevicts.lowest k v hk).trans hv

/-- After every one of some insertions the elements with the highest values are kept, if and only
    if none of them is lower than all that a full map has. The induction is on the last one. -/
theorem highest_iff (hvalid : m.Valid) (hempty : m.map.size = 0) (hl : (l.map Prod.fst).Nodup) :
    (∀ l', l' <+: l → ∀ t, run step m (l'.map .insert) = some t → Highest l' t) ↔
      ∀ l' x, l' ++ [x] <+: l → ∀ t, run step m (l'.map .insert) = some t → NotLowest t x := by
  induction l using List.reverseRecOn with
  | nil =>
    refine iff_of_true (fun l' hl' t ht => ?_) fun l' x hl' => ?_
    · obtain rfl := List.prefix_nil.1 hl'
      obtain ⟨t', ht', -, -, hins⟩ := inserted_run hvalid hempty (l := []) List.nodup_nil
      cases ht.symm.trans ht'
      exact ⟨hins.sub, hins.size, fun _ _ _ x hx => (by cases hx)⟩
    · exact absurd (List.prefix_nil.1 hl') (by simp)
  | append_singleton l x ih =>
    have hl' := hl
    rw [List.map_append, List.nodup_append] at hl'
    obtain ⟨t, ht, htvalid, -, hins⟩ := inserted_run hvalid hempty hl'.1
    obtain ⟨t', ht', -⟩ := inserted_run hvalid hempty hl
    have hlast : t.insert x = some t' := by
      rw [run_inserts_concat, ht, Option.bind_some] at ht'
      exact ht'
    have ih := ih hl'.1
    constructor
    · intro hall l' y hl'' u hu
      have hfirst := fun l₁ (h₁ : l₁ <+: l) => hall l₁ (h₁.trans (List.prefix_append l [x]))
      rcases List.prefix_concat_iff.1 hl'' with heq | hprefix
      · obtain ⟨rfl, hy⟩ := List.append_inj' heq rfl
        cases hy
        cases hu.symm.trans ht
        exact (highest_concat_iff htvalid hins (hfirst l' List.prefix_rfl t ht) hl hlast).1
          (hall _ List.prefix_rfl t' ht')
      · exact ih.1 hfirst l' y hprefix u hu
    · intro hall l' hl'' u hu
      have hfirst := ih.2 fun l₁ y h₁ => hall l₁ y (h₁.trans (List.prefix_append l [x]))
      rcases List.prefix_concat_iff.1 hl'' with rfl | hprefix
      · cases hu.symm.trans ht'
        exact (highest_concat_iff htvalid hins (hfirst l List.prefix_rfl t ht) hl hlast).2
          (hall l x List.prefix_rfl t ht)
      · exact hfirst l' hprefix u hu

/-- The bound holds, and the two containers agree, after every operation; of some insertions the
    highest values are kept just when none is lower than all that a full map has. -/
theorem limitedMap_iff {nMaxSizeIn : Nat} (h : new nMaxSizeIn = some m) :
    (∀ es, ((run step m es).isSome ↔ ∀ e ∈ es, e.Allowed) ∧ ∀ m', run step m es = some m' → m'.Valid) ∧
      ∀ l : List (K × V), (l.map Prod.fst).Nodup →
        ((∀ l', l' <+: l → ∀ t, run step m (l'.map .insert) = some t → Highest l' t) ↔
          ∀ l' x, l' ++ [x] <+: l → ∀ t, run step m (l'.map .insert) = some t → NotLowest t x) :=
  ⟨fun _ => ⟨run_isSome_iff (valid_new h), fun _ hrun => run_valid (valid_new h) hrun⟩,
    fun _ hl => highest_iff (valid_new h) (size_new h) hl⟩

namespace Sample

def one : LimitedMap Nat Nat := ⟨∅, [], 1⟩

end Sample

open Sample

theorem limitedMap_one :
    (∀ es, ((run step one es).isSome ↔ ∀ e ∈ es, e.Allowed) ∧ ∀ m', run step one es = some m' → m'.Valid) ∧
      ∀ l : List (Nat × Nat), (l.map Prod.fst).Nodup →
        ((∀ l', l' <+: l → ∀ t, run step one (l'.map .insert) = some t → Highest l' t) ↔
          ∀ l' x, l' ++ [x] <+: l → ∀ t, run step one (l'.map .insert) = some t → NotLowest t x) := by
  have hnew : new 1 = some one := rfl
  exact limitedMap_iff hnew

/-- Of 10 and then 5 the lower one is kept. -/
theorem lower_kept : ∃ t, run step one ([(1, 10), (2, 5)].map .insert) = some t ∧ ¬ Highest [(1, 10), (2, 5)] t := by
  have hrun : (run step one ([(1, 10), (2, 5)].map .insert)).map (fun t => (t.map[(1 : Nat)]?, t.map[(2 : Nat)]?)) =
      some (none, some 5) := by decide
  obtain ⟨t, ht, hlookup⟩ := Option.map_eq_some_iff.1 hrun
  obtain ⟨hfirst, hsecond⟩ := Prod.mk.inj hlookup
  refine ⟨t, ht, fun hhigh => ?_⟩
  have hle := hhigh.top 2 5 hsecond (1, 10) List.mem_cons_self hfirst
  omega

end LimitedMap

end Zumy.Container
