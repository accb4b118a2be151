/-
  Zumy.Lib.Recent — the entries a bounded map of recent keys is meant to hold.

  The keys newest first, no key twice and no more than the bound: a key that is there keeps
  its place and takes the new value, a new key goes to the front, and what is then beyond
  the bound goes. A smaller bound drops the oldest entries at once.
-/
import Mathlib.Data.List.Basic

namespace Zumy.Lib

structure Recent (K V : Type*) where
  bound : Nat
  entries : List (K × V)
  nodup : (entries.map Prod.fst).Nodup
  le : entries.length ≤ bound

variable {K V : Type*}

namespace Recent

def empty (bound : Nat) : Recent K V := ⟨bound, [], by simp, by simp⟩

def setValue [DecidableEq K] (key : K) (value : V) (l : List (K × V)) : List (K × V) :=
  l.map fun it => if it.1 = key then (key, value) else it

theorem keys_setValue [DecidableEq K] (key : K) (value : V) (l : List (K × V)) :
    (setValue key value l).map Prod.fst = l.map Prod.fst := by
  unfold setValue
  rw [List.map_map]
  apply List.map_congr_left
  intro it _
  show (if it.1 = key then (key, value) else it).1 = it.1
  split
  · rename_i h
    exact h.symm
  · rfl

def replace [DecidableEq K] (r : Recent K V) (key : K) (value : V) : Recent K V where
  bound := r.bound
  entries := setValue key value r.entries
  nodup := by
    rw [keys_setValue]
    exact r.nodup
  le := by
    unfold setValue
    rw [List.length_map]
    exact r.le

def resize (r : Recent K V) (bound : Nat) : Recent K V where
  bound := bound
  entries := r.entries.take bound
  nodup := ((List.take_sublist _ _).map _).nodup r.nodup
  le := List.length_take_le _ _

def push (r : Recent K V) (key : K) (value : V) (h : key ∉ r.entries.map Prod.fst) : Recent K V where
  bound := r.bound
  entries := ((key, value) :: r.entries).take r.bound
  nodup := by
    apply ((List.take_sublist _ _).map _).nodup
    rw [List.map_cons, List.nodup_cons]
    exact ⟨h, r.nodup⟩
  le := List.length_take_le _ _

def insert [DecidableEq K] (r : Recent K V) (key : K) (value : V) : Recent K V :=
  if h : key ∈ r.entries.map Prod.fst then r.replace key value else r.push key value h

def erase [DecidableEq K] (r : Recent K V) (key : K) : Recent K V where
  bound := r.bound
  entries := r.entries.filter (·.1 ≠ key)
  nodup := (List.filter_sublist.map _).nodup r.nodup
  le := Nat.le_trans (List.length_filter_le _ _) r.le

def clear (r : Recent K V) : Recent K V := empty r.bound

@[simp] theorem bound_insert [DecidableEq K] (r : Recent K V) (key : K) (value : V) : (r.insert key value).bound = r.bound := by
  unfold insert
  split <;> rfl

theorem entries_insert_of_mem [DecidableEq K] {r : Recent K V} {key : K} (value : V) (h : key ∈ r.entries.map Prod.fst) :
    (r.insert key value).entries = setValue key value r.entries := by
  unfold insert
  rw [dif_pos h]
  rfl

theorem entries_insert_of_lt [DecidableEq K] {r : Recent K V} {key : K} (value : V) (h : key ∉ r.entries.map Prod.fst)
    (hlt : r.entries.length < r.bound) : (r.insert key value).entries = (key, value) :: r.entries := by
  unfold insert
  rw [dif_neg h]
  show ((key, value) :: r.entries).take r.bound = _
  apply List.take_of_length_le
  rw [List.length_cons]
  omega

theorem entries_insert_of_full [DecidableEq K] {r : Recent K V} {key : K} (value : V) (h : key ∉ r.entries.map Prod.fst)
    (hfull : r.entries.length = r.bound) (hpos : 0 < r.bound) :
    (r.insert key value).entries = (key, value) :: r.entries.dropLast := by
  unfold insert
  rw [dif_neg h]
  show ((key, value) :: r.entries).take r.bound = _
  obtain ⟨n, hn⟩ : ∃ n, r.bound = n + 1 := ⟨r.bound - 1, by omega⟩
  rw [hn, List.take_succ_cons, List.dropLast_eq_take, hfull, hn, Nat.add_sub_cancel]

theorem entries_resize_of_le {r : Recent K V} {bound : Nat} (h : r.entries.length ≤ bound) :
    (r.resize bound).entries = r.entries := List.take_of_length_le h

end Recent

end Zumy.Lib
