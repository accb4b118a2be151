/-
  Zumy.Coins.Cache — a stack of coin caches as one map of unspent outputs.

  `contents` is what a stack holds for a transaction id: the coins of the first cache that
  has an entry, or of the database, and nothing where these are all spent.

  `Coherent`: in every cache a fresh entry stands where the view below has no unspent
  output, and an entry that is not dirty has what the view below has.

  (1) Reads, `Uncache` and `Flush` of any layer leave the contents as they are.
  (2) A modification of a layer changes the contents at its transaction id, as it would
      change the flat map, where no layer above has an entry for the id.
  (3) Each keeps the stack coherent; a new entry does where the view below has no unspent
      output.
-/
import Zumy.Coins.Model

namespace Zumy.Coins

open Zumy.Lib

/-! ## Coins and what is unspent of them -/

theorem all_dropWhile {α : Type*} (p : α → Bool) (l : List α) : (l.dropWhile p).all p = l.all p := by
  induction l with
  | nil => rfl
  | cons a l ih =>
    rw [List.dropWhile_cons]
    split
    · next ha => rw [ih, List.all_cons, ha, Bool.true_and]
    · rfl

namespace CCoins

variable {c : CCoins}

@[simp] theorem isPruned_cleanup : c.cleanup.isPruned = c.isPruned := by
  simp only [isPruned, cleanup, List.rdropWhile, List.all_reverse]
  rw [all_dropWhile, List.all_reverse]

theorem unspent_of_pruned (h : c.isPruned = true) : c.unspent = none := if_pos h

theorem unspent_of_not_pruned (h : c.isPruned = false) : c.unspent = some c := if_neg (Bool.eq_false_iff.1 h)

theorem unspent_eq_none_iff : c.unspent = none ↔ c.isPruned = true := by
  unfold unspent
  split
  · next h => simp [h]
  · next h => simp [h]

theorem unspent_eq_some_iff {c' : CCoins} : c.unspent = some c' ↔ c.isPruned = false ∧ c = c' := by
  unfold unspent
  split
  · next h => simp [h]
  · next h => simp [h]

theorem unspent_cleanup : c.cleanup.unspent = c.unspent.map cleanup := by
  unfold unspent
  rw [isPruned_cleanup]
  split <;> rfl

theorem spend_of_pruned (h : c.isPruned = true) (nPos : Nat) : c.spend nPos = c := by
  have havailable : c.isAvailable nPos = false := by
    unfold isAvailable
    cases hout : c.vout[nPos]? with
    | none => rfl
    | some out => simpa using List.all_eq_true.1 h out (List.mem_of_getElem? hout)
  rw [spend, havailable, if_neg Bool.false_ne_true]

def modified (f : CCoins → CCoins) (c : Option CCoins) : Option CCoins := (f (c.getD empty)).cleanup.unspent

end CCoins

/-- What the holder of a modifier does to the coins; coins that are all spent are equal to it. -/
structure Modification where
  apply : CCoins → CCoins
  respects : ∀ a b : CCoins, a.isPruned = true → b.isPruned = true → (apply a).unspent = (apply b).unspent

theorem apply_unspent_of {f : CCoins → CCoins} {c : CCoins} (hf : c.unspent = none → (f c).unspent = (f .empty).unspent) :
    (f c).cleanup.unspent = CCoins.modified f c.unspent := by
  unfold CCoins.modified
  cases h : c.isPruned with
  | false => rw [CCoins.unspent_of_not_pruned h, Option.getD_some]
  | true =>
    have hnone := CCoins.unspent_of_pruned h
    rw [hnone, Option.getD_none, CCoins.unspent_cleanup, CCoins.unspent_cleanup, hf hnone]

namespace Modification

/-- `Spend`. -/
def spend (nPos : Nat) : Modification where
  apply c := c.spend nPos
  respects a b ha hb := by
    rw [CCoins.spend_of_pruned ha, CCoins.spend_of_pruned hb, CCoins.unspent_of_pruned ha, CCoins.unspent_of_pruned hb]

end Modification

/-! ## The contents of a stack -/

def contents (db : CCoinsViewDB) : List CCoinsViewCache → Uint256 → Option CCoins
  | [], txid => db.coins[txid]?
  | c :: below, txid =>
    match c.cacheCoins[txid]? with
    | some it => it.coins.unspent
    | none => contents db below txid

/-- Every entry of every cache satisfies `Q` with what the view below holds for its id. -/
def Layered (Q : Option CCoins → CCoinsCacheEntry → Prop) (db : CCoinsViewDB) : List CCoinsViewCache → Prop
  | [] => True
  | c :: below =>
    Layered Q db below ∧ ∀ (txid : Uint256) (it : CCoinsCacheEntry), c.cacheCoins[txid]? = some it → Q (contents db below txid) it

def FreshSound (below : Option CCoins) (it : CCoinsCacheEntry) : Prop := it.fresh = true → below = none

def EntrySound (below : Option CCoins) (it : CCoinsCacheEntry) : Prop :=
  FreshSound below it ∧ (it.dirty = false → it.coins.unspent = below)

def Coherent (db : CCoinsViewDB) (caches : List CCoinsViewCache) : Prop := Layered EntrySound db caches

variable {db : CCoinsViewDB} {caches below below' : List CCoinsViewCache} {c : CCoinsViewCache} {it : CCoinsCacheEntry}
variable {txid k : Uint256} {Q : Option CCoins → CCoinsCacheEntry → Prop}

theorem contents_of_entry (h : c.cacheCoins[k]? = some it) : contents db (c :: below) k = it.coins.unspent := by
  simp only [contents, h]

theorem contents_of_none (h : c.cacheCoins[k]? = none) : contents db (c :: below) k = contents db below k := by
  simp only [contents, h]

theorem Layered.mono {Q' : Option CCoins → CCoinsCacheEntry → Prop} (hQ : ∀ below it, Q below it → Q' below it)
    (h : Layered Q db caches) :
    Layered Q' db caches := by
  induction caches with
  | nil => trivial
  | cons c below ih => exact ⟨ih h.1, fun txid it hit => hQ _ _ (h.2 txid it hit)⟩

theorem Coherent.fresh (h : Coherent db caches) : Layered FreshSound db caches := Layered.mono (fun _ _ => And.left) h

theorem contents_db (c : CCoins) (h : db.coins[k]? = some c) : c.unspent = some c :=
  CCoins.unspent_of_not_pruned (db.unpruned k c h)

/-! ## Reads -/

theorem fetchCoins_answer (txid : Uint256) :
    (View.fetchCoins db txid caches).1.bind CCoins.unspent = contents db caches txid := by
  induction caches with
  | nil =>
    simp only [View.fetchCoins, contents]
    cases hc : db.coins[txid]? with
    | none => rfl
    | some c => exact contents_db c hc
  | cons c below ih =>
    simp only [View.fetchCoins, contents]
    cases c.cacheCoins[txid]? with
    | some it => rfl
    | none =>
      cases hfetch : View.fetchCoins db txid below with
      | mk answer below' =>
        rw [hfetch] at ih
        cases answer <;> exact ih

theorem fetchCoins_spec (h : Coherent db caches) (txid : Uint256) :
    contents db (View.fetchCoins db txid caches).2 = contents db caches ∧ Coherent db (View.fetchCoins db txid caches).2 := by
  induction caches with
  | nil => exact ⟨rfl, trivial⟩
  | cons c below ih =>
    obtain ⟨hsame, hcoherent⟩ := ih h.1
    cases hit : c.cacheCoins[txid]? with
    | some it =>
      have hfetch : View.fetchCoins db txid (c :: below) = (some it.coins, c :: below) := by simp only [View.fetchCoins, hit]
      rw [hfetch]
      exact ⟨rfl, h⟩
    | none =>
      have hanswer : (View.fetchCoins db txid below).1.bind CCoins.unspent = contents db below txid := fetchCoins_answer txid
      cases hfetch : View.fetchCoins db txid below with
      | mk answer below' =>
        rw [hfetch] at hanswer hsame hcoherent
        have hcongr (k : Uint256) (it : CCoinsCacheEntry) (hk : c.cacheCoins[k]? = some it) :
            EntrySound (contents db below' k) it := by
          rw [hsame]
          exact h.2 k it hk
        simp only [View.fetchCoins, hit, hfetch]
        cases answer with
        | none => exact ⟨by simp only [contents, hsame], hcoherent, hcongr⟩
        | some tmp =>
          simp only [Option.bind_some] at hanswer
          refine ⟨?_, hcoherent, ?_⟩
          · funext k
            simp only [contents, lookup_insert, hsame]
            by_cases hk : k = txid
            · rw [hk, if_pos rfl, hit]
              exact hanswer
            · rw [if_neg hk]
          · intro k it hk
            simp only [lookup_insert] at hk
            split at hk
            · next heq =>
              cases hk
              rw [heq, hsame, ← hanswer]
              exact ⟨CCoins.unspent_eq_none_iff.2, fun _ => rfl⟩
            · exact hcongr k it hk

/-! ## Modifications -/

theorem lookup_endModifier (c : CCoinsViewCache) (txid : Uint256) (it : CCoinsCacheEntry) (k : Uint256) :
    (c.endModifier txid it).cacheCoins[k]? =
      if k = txid then if it.fresh && it.coins.cleanup.isPruned then none else some { it with coins := it.coins.cleanup }
      else c.cacheCoins[k]? := by
  unfold CCoinsViewCache.endModifier
  dsimp only
  split
  · exact lookup_erase
  · exact lookup_insert

theorem endModifier_spec (it : CCoinsCacheEntry) (h : Coherent db below)
    (hentries : ∀ (txid : Uint256) (it : CCoinsCacheEntry), c.cacheCoins[txid]? = some it →
      EntrySound (contents db below txid) it)
    (hdirty : it.dirty = true) (hfresh : it.fresh = true → contents db below txid = none) :
    contents db (c.endModifier txid it :: below) = Function.update (contents db (c :: below)) txid it.coins.cleanup.unspent ∧
      Coherent db (c.endModifier txid it :: below) := by
  constructor
  · funext k
    simp only [contents, lookup_endModifier, Function.update_apply]
    by_cases hk : k = txid
    · subst hk
      rw [if_pos rfl, if_pos rfl]
      split
      · next it' hit =>
        split at hit
        · cases hit
        · cases hit
          rfl
      · next hit =>
        split at hit
        · next hdrop =>
          obtain ⟨hf, hpruned⟩ := Bool.and_eq_true_iff.1 hdrop
          rw [hfresh hf, CCoins.unspent_of_pruned hpruned]
        · cases hit
    · rw [if_neg hk, if_neg hk]
  · refine ⟨h, fun k it' hit => ?_⟩
    rw [lookup_endModifier] at hit
    split at hit
    · next heq =>
      split at hit
      · cases hit
      · cases hit
        rw [heq]
        exact ⟨hfresh, fun hclean => absurd (hdirty.symm.trans hclean) (by decide)⟩
    · exact hentries k it' hit

def flatModify (m : Uint256 → Option CCoins) (txid : Uint256) (f : CCoins → CCoins) : Uint256 → Option CCoins :=
  Function.update m txid (CCoins.modified f (m txid))

def flatNew (m : Uint256 → Option CCoins) (txid : Uint256) (f : CCoins → CCoins) : Uint256 → Option CCoins :=
  Function.update m txid (CCoins.modified f none)

section ModifyCoins

variable {f : CCoins → CCoins} {coins : CCoins}

theorem modifyCoins_hit (hit : c.cacheCoins[txid]? = some it) :
    View.modifyCoins txid f ⟨c :: below, db⟩ = ⟨c.endModifier txid ⟨f it.coins, true, it.fresh⟩ :: below, db⟩ := by
  simp only [View.modifyCoins, hit]

theorem modifyCoins_none (hit : c.cacheCoins[txid]? = none) (hfetch : View.fetchCoins db txid below = (none, below')) :
    View.modifyCoins txid f ⟨c :: below, db⟩ = ⟨c.endModifier txid ⟨f .empty, true, true⟩ :: below', db⟩ := by
  simp only [View.modifyCoins, hit, hfetch]

theorem modifyCoins_some (hit : c.cacheCoins[txid]? = none) (hfetch : View.fetchCoins db txid below = (some coins, below')) :
    View.modifyCoins txid f ⟨c :: below, db⟩ = ⟨c.endModifier txid ⟨f coins, true, coins.isPruned⟩ :: below', db⟩ := by
  simp only [View.modifyCoins, hit, hfetch]

end ModifyCoins

/-- A modification that takes coins that are all spent as no coins, where there are none. -/
theorem modifyCoins_spec_of (h : Coherent db (c :: below)) (txid : Uint256) (f : CCoins → CCoins)
    (hf : contents db (c :: below) txid = none → ∀ a, a.isPruned = true → (f a).unspent = (f .empty).unspent) :
    ∃ c' below', View.modifyCoins txid f ⟨c :: below, db⟩ = ⟨c' :: below', db⟩ ∧ contents db below' = contents db below ∧
      contents db (c' :: below') = flatModify (contents db (c :: below)) txid f ∧ Coherent db (c' :: below') := by
  unfold flatModify
  have happly (coins : CCoins) (hcoins : contents db (c :: below) txid = coins.unspent) :
      (f coins).cleanup.unspent = CCoins.modified f (contents db (c :: below) txid) := by
    rw [hcoins]
    exact apply_unspent_of fun hnone => hf (hcoins.trans hnone) coins (CCoins.unspent_eq_none_iff.1 hnone)
  cases hit : c.cacheCoins[txid]? with
  | some it =>
    have hspec := endModifier_spec ⟨f it.coins, true, it.fresh⟩ h.1 h.2 rfl (h.2 txid it hit).1
    refine ⟨_, below, modifyCoins_hit hit, rfl, ?_, hspec.2⟩
    rw [hspec.1, happly it.coins (contents_of_entry hit)]
  | none =>
    have hanswer : (View.fetchCoins db txid below).1.bind CCoins.unspent = contents db below txid := fetchCoins_answer txid
    obtain ⟨hsame, hcoherent⟩ := fetchCoins_spec h.1 txid
    cases hfetch : View.fetchCoins db txid below with
    | mk answer below' =>
      rw [hfetch] at hanswer hsame hcoherent
      have hentries (k : Uint256) (it : CCoinsCacheEntry) (hk : c.cacheCoins[k]? = some it) :
          EntrySound (contents db below' k) it := by
        rw [hsame]
        exact h.2 k it hk
      have htop : contents db (c :: below') = contents db (c :: below) := by
        funext k
        simp only [contents, hsame]
      have hthere : contents db (c :: below) txid = answer.bind CCoins.unspent := by rw [contents_of_none hit, ← hanswer]
      cases answer with
      | none =>
        have hnone : contents db below' txid = none := by rw [hsame, ← hanswer, Option.bind_none]
        have hspec := endModifier_spec ⟨f .empty, true, true⟩ hcoherent hentries rfl fun _ => hnone
        refine ⟨_, below', modifyCoins_none hit hfetch, hsame, ?_, hspec.2⟩
        rw [hspec.1, htop, happly .empty hthere]
      | some coins =>
        have hfresh (hpruned : coins.isPruned = true) : contents db below' txid = none := by
          rw [hsame, ← hanswer, Option.bind_some, CCoins.unspent_of_pruned hpruned]
        have hspec := endModifier_spec ⟨f coins, true, coins.isPruned⟩ hcoherent hentries rfl hfresh
        refine ⟨_, below', modifyCoins_some hit hfetch, hsame, ?_, hspec.2⟩
        rw [hspec.1, htop, happly coins hthere]

theorem modifyCoins_spec (h : Coherent db (c :: below)) (txid : Uint256) (f : Modification) :
    ∃ c' below', View.modifyCoins txid f.apply ⟨c :: below, db⟩ = ⟨c' :: below', db⟩ ∧ contents db below' = contents db below ∧
      contents db (c' :: below') = flatModify (contents db (c :: below)) txid f.apply ∧ Coherent db (c' :: below') :=
  modifyCoins_spec_of h txid f.apply fun _ a ha => f.respects a .empty ha rfl

theorem modifyNewCoins_spec (h : Coherent db (c :: below)) (f : CCoins → CCoins) (hnew : contents db below txid = none) :
    ∃ c', View.modifyNewCoins txid f ⟨c :: below, db⟩ = ⟨c' :: below, db⟩ ∧
      contents db (c' :: below) = flatNew (contents db (c :: below)) txid f ∧ Coherent db (c' :: below) := by
  have hspec := endModifier_spec ⟨f .empty, true, true⟩ h.1 h.2 rfl fun _ => hnew
  exact ⟨_, rfl, hspec.1, hspec.2⟩

/-! ## Flushes -/

def mergeEntry (it : CCoinsCacheEntry) (itUs : Option CCoinsCacheEntry) : Option CCoinsCacheEntry :=
  if it.dirty then
    if (itUs.elim it.fresh (·.fresh)) && it.coins.isPruned then none else some ⟨it.coins, true, itUs.elim it.fresh (·.fresh)⟩
  else itUs

theorem lookup_batchWrite (d : CCoinsViewCache) (m : Map Uint256 CCoinsCacheEntry) (hashBlock : Uint256) (k : Uint256) :
    (d.batchWrite m hashBlock).cacheCoins[k]? = m[k]?.elim d.cacheCoins[k]? fun it => mergeEntry it d.cacheCoins[k]? := by
  apply lookup_foldl_toList mergeEntry
  intro m kv a
  unfold CCoinsViewCache.write mergeEntry
  cases kv.2.dirty with
  | false => simp
  | true =>
    simp only [if_true]
    by_cases ha : a = kv.1
    · subst ha
      rw [if_pos rfl]
      cases hm : m[kv.1]? with
      | none =>
        cases hdrop : (kv.2.fresh && kv.2.coins.isPruned) with
        | true => simp only [Option.elim_none, hdrop, if_true, hm]
        | false => simp only [Option.elim_none, hdrop, if_true, Bool.false_eq_true, if_false, lookup_insert]
      | some itUs =>
        cases hdrop : (itUs.fresh && kv.2.coins.isPruned) with
        | true => simp only [Option.elim_some, hdrop, if_true, lookup_erase]
        | false => simp only [Option.elim_some, hdrop, if_true, Bool.false_eq_true, if_false, lookup_insert]
    · rw [if_neg ha]
      cases m[kv.1]? <;> simp only <;> split <;> simp [lookup_insert, lookup_erase, ha]

theorem lookup_db_batchWrite (db : CCoinsViewDB) (m : Map Uint256 CCoinsCacheEntry) (hashBlock : Uint256) (k : Uint256) :
    (db.batchWrite m hashBlock).coins[k]? = m[k]?.elim db.coins[k]? fun it =>
      if it.dirty then it.coins.unspent else db.coins[k]? := by
  apply lookup_foldl_toList fun (it : CCoinsCacheEntry) c => if it.dirty then it.coins.unspent else c
  intro m kv a
  unfold CCoinsViewDB.write CCoins.unspent
  cases kv.2.dirty with
  | false => simp
  | true =>
    simp only [if_true]
    split
    · simp [lookup_erase]
    · simp [lookup_insert]

@[simp] theorem contents_emptied : contents db ({ c with cacheCoins := ∅ } :: below) = contents db below := by
  funext k
  simp [contents]

theorem coherent_emptied (h : Coherent db below) : Coherent db ({ c with cacheCoins := ∅ } :: below) :=
  ⟨h, fun txid it hit => by simp at hit⟩

theorem batchWrite_spec {d : CCoinsViewCache} (h : Coherent db (c :: d :: below)) (hashBlock : Uint256) :
    contents db (d.batchWrite c.cacheCoins hashBlock :: below) = contents db (c :: d :: below) ∧
      Coherent db (d.batchWrite c.cacheCoins hashBlock :: below) := by
  obtain ⟨⟨hbelow, hours⟩, htheirs⟩ := h
  have hentry (k : Uint256) : contents db (d.batchWrite c.cacheCoins hashBlock :: below) k = contents db (c :: d :: below) k ∧
      ∀ it', (d.batchWrite c.cacheCoins hashBlock).cacheCoins[k]? = some it' → EntrySound (contents db below k) it' := by
    simp only [contents, lookup_batchWrite]
    cases hit : c.cacheCoins[k]? with
    | none => exact ⟨rfl, fun it' hit' => hours k it' hit'⟩
    | some it =>
      have hsound := htheirs k it hit
      simp only [Option.elim_some, mergeEntry]
      cases hdirty : it.dirty with
      | false =>
        rw [hsound.2 hdirty]
        exact ⟨rfl, fun it' hit' => hours k it' hit'⟩
      | true =>
        have hfresh : (d.cacheCoins[k]?.elim it.fresh (·.fresh)) = true → contents db below k = none := by
          cases hus : d.cacheCoins[k]? with
          | none =>
            intro hf
            rw [← contents_of_none hus]
            exact hsound.1 hf
          | some itUs => exact (hours k itUs hus).1
        cases hdrop : ((d.cacheCoins[k]?.elim it.fresh (·.fresh)) && it.coins.isPruned) with
        | true =>
          obtain ⟨hf, hpruned⟩ := Bool.and_eq_true_iff.1 hdrop
          simp only [if_true]
          exact ⟨(hfresh hf).trans (CCoins.unspent_of_pruned hpruned).symm, fun _ hit' => absurd hit' (by simp)⟩
        | false =>
          simp only [if_true, Bool.false_eq_true, if_false]
          refine ⟨trivial, fun it' hit' => ?_⟩
          cases hit'
          exact ⟨hfresh, nofun⟩
  exact ⟨funext fun k => (hentry k).1, hbelow, fun k it hit => (hentry k).2 it hit⟩

theorem flush_spec (h : Coherent db caches) :
    contents (View.flush ⟨caches, db⟩).db (View.flush ⟨caches, db⟩).caches = contents db caches ∧
      Coherent (View.flush ⟨caches, db⟩).db (View.flush ⟨caches, db⟩).caches := by
  match caches, h with
  | [], h => exact ⟨rfl, h⟩
  | [c], h =>
    simp only [View.flush, contents_emptied]
    refine ⟨?_, coherent_emptied trivial⟩
    funext k
    simp only [contents, lookup_db_batchWrite]
    cases hit : c.cacheCoins[k]? with
    | none => rfl
    | some it =>
      simp only [Option.elim_some]
      split
      · rfl
      · next hclean => exact ((h.2 k it hit).2 (Bool.eq_false_iff.2 hclean)).symm
  | c :: d :: below, h =>
    have hspec := batchWrite_spec h c.hashBlock
    simp only [View.flush, contents_emptied]
    exact ⟨hspec.1, coherent_emptied hspec.2⟩

theorem uncache_spec (h : Coherent db caches) (hash : Uint256) :
    ∃ caches', View.uncache hash ⟨caches, db⟩ = ⟨caches', db⟩ ∧ contents db caches' = contents db caches ∧
      Coherent db caches' := by
  match caches, h with
  | [], h => exact ⟨[], rfl, rfl, h⟩
  | c :: below, h =>
    unfold View.uncache
    dsimp only
    split
    · next it hit =>
      split
      · exact ⟨_, rfl, rfl, h⟩
      · next hclean =>
        rw [Bool.not_eq_true, Bool.or_eq_false_iff] at hclean
        refine ⟨_, rfl, ?_, h.1, ?_⟩
        · funext k
          simp only [contents, lookup_erase]
          by_cases hk : k = hash
          · rw [if_pos hk, hk, hit]
            exact ((h.2 hash it hit).2 hclean.1).symm
          · rw [if_neg hk]
        · intro k it' hit'
          simp only [lookup_erase] at hit'
          split at hit'
          · cases hit'
          · exact h.2 k it' hit'
    · exact ⟨_, rfl, rfl, h⟩

end Zumy.Coins
