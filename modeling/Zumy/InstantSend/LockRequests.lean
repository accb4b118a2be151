/-
  Zumy.InstantSend.LockRequests — `CTxLockRequest::IsValid` with the views it reads
  (instantsend.cpp).

  An input that is not unspent is refused when `fRequireUnspent` is false, and looked up among
  the confirmed transactions when it is true; the comment in front of the test is about the
  requests that need not be unspent. The sums are 64-bit integers, which wrap here.
-/
import Zumy.Coins.Model
import Zumy.InstantSend.Process

namespace Zumy.InstantSend

open Coins (CCoins)

def int64 (n : Int) : Int := n.bmod (2 ^ 64)

/-- The coins and the transactions that `IsValid` looks up. -/
structure OutputViews where
  /-- `pcoinsTip->GetCoins` -/
  getCoins : Uint256 → Option CCoins
  /-- `GetTransaction`, with the hash of the block, which is null for a transaction of the mempool. -/
  getTransaction : Uint256 → Option (CTransaction × Uint256)
  /-- The heights of `mapBlockIndex`. -/
  blockHeight : Uint256 → Option Int

/-- What an input spends: nothing that is known, an output behind the last one, or an output with
    its height and value. -/
inductive Prevout where
  | unknown
  | behind
  | known (nPrevoutHeight : Int) (nValue : CAmount)
  deriving DecidableEq

namespace OutputViews

variable (views : OutputViews)

def unspent (o : COutPoint) : Option (Int × CAmount) :=
  (views.getCoins o.hash).bind fun coins => (coins.vout[o.n]?).bind fun out =>
    if out.isNull then none else some (coins.nHeight, out.nValue)

def created (o : COutPoint) : Prevout :=
  match views.getTransaction o.hash with
  | none => .unknown
  | some (txOutpointCreated, nHashOutpointConfirmed) =>
    if nHashOutpointConfirmed = 0 then .unknown
    else match views.blockHeight nHashOutpointConfirmed with
      | none => .unknown
      | some nPrevoutHeight =>
        match txOutpointCreated.vout[o.n]? with
        | none => .behind
        | some out => .known nPrevoutHeight out.nValue

def prevout (fRequireUnspent : Bool) (o : COutPoint) : Prevout :=
  match views.unspent o with
  | some (nPrevoutHeight, nValue) => .known nPrevoutHeight nValue
  | none => if !fRequireUnspent then .unknown else views.created o

/-- The loop over the inputs from a value on: `none` where it reads behind the outputs, `some none` where
    `IsValid` returns false. -/
def sumInputs (env : Env) (fRequireUnspent : Bool) : List CTxIn → CAmount → Option (Option CAmount)
  | [], nValueIn => some (some nValueIn)
  | txin :: vin, nValueIn =>
    match views.prevout fRequireUnspent txin.prevout with
    | .unknown => some none
    | .behind => none
    | .known nPrevoutHeight nValue =>
      let nTxAge := env.chainHeight - nPrevoutHeight + 1
      if nTxAge < instantsendConfirmationsRequired - 1 then some none
      else sumInputs env fRequireUnspent vin (int64 (nValueIn + nValue))

end OutputViews

/-- `IsValid`; `none` where it reads behind the outputs of a transaction. -/
def CTxLockRequest.isValidOn (env : Env) (views : OutputViews) (T : CTxLockRequest) (fRequireUnspent : Bool) : Option Bool :=
  if T.vout.length < 1 then some false
  else if T.vin.length > warnManyInputs then some false
  else if !env.checkFinalTx T.toCTransaction then some false
  else if T.vout.any fun o => !env.isNormalPaymentScript o.scriptPubKey && !env.isUnspendable o.scriptPubKey then some false
  else match views.sumInputs env fRequireUnspent T.vin 0 with
    | none => none
    | some none => some false
    | some (some nValueIn) =>
      let nValueOut := T.vout.foldl (fun nValueOut txout => int64 (nValueOut + txout.nValue)) 0
      if nValueOut > env.spork5Value * coin then some false
      else if int64 (nValueIn - nValueOut) < T.getMinFee then some false
      else some true

variable {env : Env} {views : OutputViews} {T : CTxLockRequest} {fRequireUnspent : Bool}

/-! ## Sums -/

theorem int64_add_left (a b : Int) : int64 (int64 a + b) = int64 (a + b) := Int.bmod_add_bmod

theorem int64_sub (a b : Int) : int64 (int64 a - int64 b) = int64 (a - b) := (Int.sub_bmod a b (2 ^ 64)).symm

theorem int64_of_fits {n : Int} (h : -2 ^ 63 ≤ n ∧ n < 2 ^ 63) : int64 n = n := by
  apply Int.bmod_eq_of_le
  · omega
  · omega

theorem foldl_int64 {α : Type} (f : α → Int) (l : List α) (a : Int) :
    l.foldl (fun n x => int64 (n + f x)) (int64 a) = int64 (a + (l.map f).sum) := by
  induction l generalizing a with
  | nil => rw [List.foldl_nil, List.map_nil, List.sum_nil, Int.add_zero]
  | cons x l ih => rw [List.foldl_cons, int64_add_left, ih, List.map_cons, List.sum_cons, Int.add_assoc]

theorem sumOutputs_eq (vout : List CTxOut) : vout.foldl (fun nValueOut txout => int64 (nValueOut + txout.nValue)) 0 =
    int64 (vout.map CTxOut.nValue).sum := by
  have hsum := foldl_int64 CTxOut.nValue vout 0
  rwa [Int.zero_add] at hsum

/-! ## The checks -/

def OutputViews.valueOf (views : OutputViews) (fRequireUnspent : Bool) (o : COutPoint) : CAmount :=
  match views.prevout fRequireUnspent o with
  | .known _ nValue => nValue
  | _ => 0

def OutputViews.Confirmed (env : Env) (views : OutputViews) (fRequireUnspent : Bool) (o : COutPoint) : Prop :=
  ∃ nPrevoutHeight nValue, views.prevout fRequireUnspent o = .known nPrevoutHeight nValue ∧
    instantsendConfirmationsRequired - 1 ≤ env.chainHeight - nPrevoutHeight + 1

def CTxLockRequest.valueIn (views : OutputViews) (T : CTxLockRequest) (fRequireUnspent : Bool) : Int :=
  (T.vin.map fun txin => views.valueOf fRequireUnspent txin.prevout).sum

def CTxLockRequest.valueOut (T : CTxLockRequest) : Int := (T.vout.map CTxOut.nValue).sum

theorem sumInputs_iff {vin : List CTxIn} {a v : Int} : views.sumInputs env fRequireUnspent vin (int64 a) = some (some v) ↔
    (∀ txin ∈ vin, views.Confirmed env fRequireUnspent txin.prevout) ∧
      v = int64 (a + (vin.map fun txin => views.valueOf fRequireUnspent txin.prevout).sum) := by
  induction vin generalizing a with
  | nil =>
    rw [OutputViews.sumInputs, List.map_nil, List.sum_nil, Int.add_zero, Option.some.injEq, Option.some.injEq, eq_comm]
    exact (and_iff_right fun txin h => by cases h).symm
  | cons txin vin ih =>
    rw [OutputViews.sumInputs, List.forall_mem_cons, List.map_cons, List.sum_cons]
    cases hprev : views.prevout fRequireUnspent txin.prevout with
    | unknown =>
      refine iff_of_false (fun h => by cases h) ?_
      rintro ⟨⟨⟨_, _, hknown, -⟩, -⟩, -⟩
      rw [hprev] at hknown
      cases hknown
    | behind =>
      refine iff_of_false (fun h => by cases h) ?_
      rintro ⟨⟨⟨_, _, hknown, -⟩, -⟩, -⟩
      rw [hprev] at hknown
      cases hknown
    | known nPrevoutHeight nValue =>
      have hvalue : views.valueOf fRequireUnspent txin.prevout = nValue := by
        unfold OutputViews.valueOf
        rw [hprev]
      have hconfirmed : views.Confirmed env fRequireUnspent txin.prevout ↔
          ¬ env.chainHeight - nPrevoutHeight + 1 < instantsendConfirmationsRequired - 1 := by
        unfold OutputViews.Confirmed
        rw [hprev]
        constructor
        · rintro ⟨_, _, hsame, hage⟩
          cases hsame
          omega
        · intro hage
          exact ⟨nPrevoutHeight, nValue, rfl, by omega⟩
      rw [hconfirmed, hvalue]
      dsimp only
      split
      · rename_i hnew
        exact iff_of_false (fun h => by cases h) (fun h => h.1.1 hnew)
      · rename_i hold
        rw [int64_add_left, ih, and_iff_right hold, Int.add_assoc]

/-- The checks of `IsValid` on a request. -/
structure CTxLockRequest.Passes (env : Env) (views : OutputViews) (T : CTxLockRequest) (fRequireUnspent : Bool) : Prop where
  outputs : T.vout ≠ []
  inputs : T.vin.length ≤ warnManyInputs
  final : env.checkFinalTx T.toCTransaction = true
  scripts : ∀ txout ∈ T.vout, env.isNormalPaymentScript txout.scriptPubKey = true ∨ env.isUnspendable txout.scriptPubKey = true
  confirmed : ∀ txin ∈ T.vin, views.Confirmed env fRequireUnspent txin.prevout
  limit : int64 T.valueOut ≤ env.spork5Value * coin
  fee : T.getMinFee ≤ int64 (T.valueIn views fRequireUnspent - T.valueOut)

theorem sumInputs_zero_iff (env : Env) (views : OutputViews) (fRequireUnspent : Bool) (vin : List CTxIn) (v : Int) :
    views.sumInputs env fRequireUnspent vin 0 = some (some v) ↔
      (∀ txin ∈ vin, views.Confirmed env fRequireUnspent txin.prevout) ∧
        v = int64 (vin.map fun txin => views.valueOf fRequireUnspent txin.prevout).sum := by
  have hsum : views.sumInputs env fRequireUnspent vin (int64 0) = some (some v) ↔ _ := sumInputs_iff
  rwa [Int.zero_add] at hsum

theorem scripts_iff : ¬ (T.vout.any fun o => !env.isNormalPaymentScript o.scriptPubKey && !env.isUnspendable o.scriptPubKey) = true ↔
    ∀ txout ∈ T.vout, env.isNormalPaymentScript txout.scriptPubKey = true ∨ env.isUnspendable txout.scriptPubKey = true := by
  simp only [List.any_eq_true, Bool.and_eq_true, Bool.not_eq_true', not_exists, not_and]
  refine forall₂_congr fun txout _ => ?_
  cases env.isNormalPaymentScript txout.scriptPubKey with
  | true => simp
  | false => simp

theorem length_iff : ¬ T.vout.length < 1 ↔ T.vout ≠ [] := by
  rw [Nat.lt_one_iff, List.length_eq_zero_iff]

theorem ite_eq_iff_of_ne {α : Type} {p : Prop} [Decidable p] {a b r : α} (h : a ≠ r) :
    (if p then a else b) = r ↔ ¬ p ∧ b = r := by
  by_cases hp : p
  · rw [if_pos hp]
    exact iff_of_false h fun hb => hb.1 hp
  · rw [if_neg hp, and_iff_right hp]

theorem isValidOn_iff : T.isValidOn env views fRequireUnspent = some true ↔ T.Passes env views fRequireUnspent := by
  have hno : some false ≠ some true := by decide
  have hzero := sumInputs_zero_iff env views fRequireUnspent T.vin
  unfold CTxLockRequest.isValidOn
  rw [ite_eq_iff_of_ne hno, ite_eq_iff_of_ne hno, ite_eq_iff_of_ne hno, ite_eq_iff_of_ne hno, length_iff, scripts_iff]
  cases hsum : views.sumInputs env fRequireUnspent T.vin 0 with
  | none =>
    refine iff_of_false (fun h => by cases h.2.2.2.2) (fun hpasses => ?_)
    cases hsum.symm.trans ((hzero _).2 ⟨hpasses.confirmed, rfl⟩)
  | some nValue =>
    cases nValue with
    | none =>
      refine iff_of_false (fun h => by cases h.2.2.2.2) (fun hpasses => ?_)
      cases hsum.symm.trans ((hzero _).2 ⟨hpasses.confirmed, rfl⟩)
    | some nValueIn =>
      obtain ⟨hconfirmed, rfl⟩ := (hzero nValueIn).1 hsum
      dsimp only
      rw [sumOutputs_eq, int64_sub, ite_eq_iff_of_ne hno, ite_eq_iff_of_ne hno]
      constructor
      · rintro ⟨houtputs, hinputs, hfinal, hscripts, hlimit, hfee, -⟩
        exact ⟨houtputs, not_lt.1 hinputs, by simpa using hfinal, hscripts, hconfirmed, not_lt.1 hlimit, not_lt.1 hfee⟩
      · rintro ⟨houtputs, hinputs, hfinal, hscripts, -, hlimit, hfee⟩
        exact ⟨houtputs, not_lt.2 hinputs, by simpa using hfinal, hscripts, not_lt.2 hlimit, not_lt.2 hfee, rfl⟩

/-! ## What a positive answer means -/

/-- Every input spends an unspent output with the confirmations asked for, and the outputs leave the minimum fee. -/
structure CTxLockRequest.UnspentAndPaid (env : Env) (views : OutputViews) (T : CTxLockRequest) : Prop where
  unspent : ∀ txin ∈ T.vin, ∃ nPrevoutHeight nValue, views.unspent txin.prevout = some (nPrevoutHeight, nValue) ∧
    instantsendConfirmationsRequired - 1 ≤ env.chainHeight - nPrevoutHeight + 1
  paid : T.getMinFee ≤
    (T.vin.map fun txin => ((views.unspent txin.prevout).map (·.2)).getD 0).sum - (T.vout.map CTxOut.nValue).sum

/-- `IsValid(true)` answers true only for these. -/
def CTxLockRequest.Sound (env : Env) (views : OutputViews) (T : CTxLockRequest) : Prop :=
  T.isValidOn env views true = some true → T.UnspentAndPaid env views

theorem prevout_unspent {o : COutPoint} {nPrevoutHeight : Int} {nValue : CAmount}
    (h : views.unspent o = some (nPrevoutHeight, nValue)) : views.prevout fRequireUnspent o = .known nPrevoutHeight nValue := by
  unfold OutputViews.prevout
  rw [h]

theorem valueIn_unspent (h : ∀ txin ∈ T.vin, (views.unspent txin.prevout).isSome = true) : T.valueIn views fRequireUnspent =
    (T.vin.map fun txin => ((views.unspent txin.prevout).map (·.2)).getD 0).sum := by
  unfold CTxLockRequest.valueIn
  congr 1
  apply List.map_congr_left
  intro txin hin
  obtain ⟨⟨nPrevoutHeight, nValue⟩, hunspent⟩ := Option.isSome_iff_exists.1 (h txin hin)
  unfold OutputViews.valueOf
  rw [prevout_unspent hunspent, hunspent]
  rfl

theorem le_of_le_int64 {m n : Int} (hm : 0 ≤ m) (hbound : m ≤ 2 ^ 63) (hlow : -2 ^ 63 ≤ n) (h : m ≤ int64 n) : m ≤ n := by
  by_cases hhigh : n < 2 ^ 63
  · rwa [int64_of_fits ⟨hlow, hhigh⟩] at h
  · omega

theorem getMinFee_bounds (h : T.vin.length ≤ warnManyInputs) : 0 ≤ T.getMinFee ∧ T.getMinFee ≤ 2 ^ 63 := by
  have hfee : minFee = 100000 := by decide
  have hlength : (T.vin.length : Int) ≤ 100 := Int.ofNat_le.2 h
  unfold CTxLockRequest.getMinFee
  rw [hfee]
  have hmany : (T.vin.length : Int) * 100000 ≤ 2 ^ 63 := by omega
  exact ⟨le_max_of_le_left (by decide), max_le (by decide) hmany⟩

/-- Exactly these requests are answered right: a check refuses them, or all their inputs are unspent and the
    difference of the values does not fall below the range of an amount. -/
theorem lock_request_sound_iff (env : Env) (views : OutputViews) (T : CTxLockRequest) :
    T.Sound env views ↔ ¬ T.Passes env views true ∨
      ((∀ txin ∈ T.vin, (views.unspent txin.prevout).isSome = true) ∧
        -2 ^ 63 ≤ (T.vin.map fun txin => ((views.unspent txin.prevout).map (·.2)).getD 0).sum -
          (T.vout.map CTxOut.nValue).sum) := by
  unfold CTxLockRequest.Sound
  rw [isValidOn_iff, ← imp_iff_not_or]
  refine imp_congr_right fun hpasses => ?_
  have hbounds := getMinFee_bounds hpasses.inputs
  constructor
  · rintro ⟨hunspent, hpaid⟩
    have hfee : 0 ≤ T.getMinFee := hbounds.1
    refine ⟨fun txin hin => ?_, le_trans (le_trans (by decide) hfee) hpaid⟩
    obtain ⟨nPrevoutHeight, nValue, hsome, -⟩ := hunspent txin hin
    rw [hsome]
    rfl
  · rintro ⟨hunspent, hlow⟩
    have hfee := hpasses.fee
    rw [valueIn_unspent hunspent] at hfee
    refine ⟨fun txin hin => ?_, le_of_le_int64 hbounds.1 hbounds.2 hlow hfee⟩
    obtain ⟨⟨nPrevoutHeight, nValue⟩, hsome⟩ := Option.isSome_iff_exists.1 (hunspent txin hin)
    obtain ⟨_, _, hknown, hage⟩ := hpasses.confirmed txin hin
    rw [prevout_unspent hsome] at hknown
    cases hknown
    exact ⟨nPrevoutHeight, nValue, hsome, hage⟩

/-! ## The sums that fit -/

/-- What a step reads of the coins and the transactions is what the views have. -/
structure Env.Reads (env : Env) (views : OutputViews) : Prop where
  coin : ∀ o, env.getCoin o = views.unspent o
  created : ∀ o, env.outpointCreated o = match views.created o with
    | .known nPrevoutHeight nValue => some (nPrevoutHeight, nValue)
    | _ => none

theorem inputValue_eq_some_iff (hreads : env.Reads views) {txin : CTxIn} {nValue : CAmount} :
    CTxLockRequest.inputValue env fRequireUnspent txin = some nValue ↔
      views.Confirmed env fRequireUnspent txin.prevout ∧ nValue = views.valueOf fRequireUnspent txin.prevout := by
  have hvalue : CTxLockRequest.inputValue env fRequireUnspent txin = match views.prevout fRequireUnspent txin.prevout with
      | .known nPrevoutHeight nValue =>
        if env.chainHeight - nPrevoutHeight + 1 < instantsendConfirmationsRequired - 1 then none else some nValue
      | _ => none := by
    unfold CTxLockRequest.inputValue OutputViews.prevout
    rw [hreads.coin, hreads.created]
    cases views.unspent txin.prevout with
    | some c => rfl
    | none =>
      cases fRequireUnspent with
      | false => rfl
      | true => cases views.created txin.prevout <;> rfl
  rw [hvalue]
  unfold OutputViews.Confirmed OutputViews.valueOf
  cases views.prevout fRequireUnspent txin.prevout with
  | unknown => simp
  | behind => simp
  | known nPrevoutHeight nValue' =>
    dsimp only
    split
    · rename_i hnew
      refine iff_of_false (fun h => by cases h) ?_
      rintro ⟨⟨_, _, hknown, hage⟩, -⟩
      cases hknown
      omega
    · rename_i hold
      rw [Option.some.injEq, eq_comm]
      exact (and_iff_right ⟨nPrevoutHeight, nValue', rfl, by omega⟩).symm

theorem mapM_inputValue_iff (hreads : env.Reads views) {vin : List CTxIn} {values : List CAmount} :
    vin.mapM (CTxLockRequest.inputValue env fRequireUnspent) = some values ↔
      (∀ txin ∈ vin, views.Confirmed env fRequireUnspent txin.prevout) ∧
        values = vin.map fun txin => views.valueOf fRequireUnspent txin.prevout := by
  induction vin generalizing values with
  | nil => simp [eq_comm]
  | cons txin vin ih =>
    rw [List.mapM_cons, List.forall_mem_cons, List.map_cons]
    simp only [Option.bind_eq_bind, Option.bind_eq_some_iff, inputValue_eq_some_iff hreads, ih, Option.pure_def,
      Option.some.injEq]
    constructor
    · rintro ⟨_, ⟨hfirst, rfl⟩, _, ⟨hrest, rfl⟩, rfl⟩
      exact ⟨⟨hfirst, hrest⟩, rfl⟩
    · rintro ⟨⟨hfirst, hrest⟩, rfl⟩
      exact ⟨_, ⟨hfirst, rfl⟩, _, ⟨hrest, rfl⟩, rfl⟩

def CTxLockRequest.SumsFit (views : OutputViews) (T : CTxLockRequest) (fRequireUnspent : Bool) : Prop :=
  (-2 ^ 63 ≤ T.valueOut ∧ T.valueOut < 2 ^ 63) ∧
    (-2 ^ 63 ≤ T.valueIn views fRequireUnspent - T.valueOut ∧ T.valueIn views fRequireUnspent - T.valueOut < 2 ^ 63)

theorem passes_iff_isValid (hreads : env.Reads views) (hfit : T.SumsFit views fRequireUnspent) :
    T.Passes env views fRequireUnspent ↔ T.isValid env fRequireUnspent = true := by
  obtain ⟨hout, hdiff⟩ := hfit
  have hno : false ≠ true := by decide
  unfold CTxLockRequest.isValid
  rw [ite_eq_iff_of_ne hno, ite_eq_iff_of_ne hno, ite_eq_iff_of_ne hno, ite_eq_iff_of_ne hno, length_iff, scripts_iff]
  cases hsum : T.vin.mapM (CTxLockRequest.inputValue env fRequireUnspent) with
  | none =>
    refine iff_of_false (fun hpasses => ?_) (fun h => by cases h.2.2.2.2)
    cases hsum.symm.trans ((mapM_inputValue_iff hreads).2 ⟨hpasses.confirmed, rfl⟩)
  | some values =>
    obtain ⟨hconfirmed, rfl⟩ := (mapM_inputValue_iff hreads).1 hsum
    dsimp only
    rw [ite_eq_iff_of_ne hno, ite_eq_iff_of_ne hno]
    constructor
    · rintro ⟨houtputs, hinputs, hfinal, hscripts, -, hlimit, hfee⟩
      rw [int64_of_fits hout] at hlimit
      rw [int64_of_fits hdiff] at hfee
      exact ⟨houtputs, not_lt.2 hinputs, by simpa using hfinal, hscripts, not_lt.2 hlimit, not_lt.2 hfee, rfl⟩
    · rintro ⟨houtputs, hinputs, hfinal, hscripts, hlimit, hfee, -⟩
      refine ⟨houtputs, not_lt.1 hinputs, by simpa using hfinal, hscripts, hconfirmed, ?_, ?_⟩
      · rw [int64_of_fits hout]
        exact not_lt.1 hlimit
      · rw [int64_of_fits hdiff]
        exact not_lt.1 hfee

theorem isValid_of_isValidOn (hreads : env.Reads views) (hfit : T.SumsFit views fRequireUnspent) {fValid : Bool}
    (h : T.isValidOn env views fRequireUnspent = some fValid) : T.isValid env fRequireUnspent = fValid := by
  have hiff := isValidOn_iff.trans (passes_iff_isValid hreads hfit)
  cases fValid with
  | true => exact hiff.1 h
  | false =>
    rw [← Bool.not_eq_true, ← hiff, h]
    exact fun h => by cases h

/-! ## Two requests -/

/-- Transaction 5 of block 7, at height 1, has an output of 2 coins; it is unspent or not. -/
def oneBlock (fUnspent : Bool) : OutputViews where
  getCoins := fun hash => if fUnspent && hash == 5 then some ⟨false, [⟨2 * coin, []⟩], 1, 1⟩ else none
  getTransaction := fun hash => if hash = 5 then some (⟨[], [⟨2 * coin, []⟩], 5⟩, 7) else none
  blockHeight := fun hash => if hash = 7 then some 1 else none

/-- A payment of the spent output; and three outputs of 2^62 for the one of 2 coins. -/
theorem spent_output_taken :
    ¬ CTxLockRequest.Sound network (oneBlock false) ⟨payment 1 ⟨5, 0⟩, 0⟩ ∧
    ¬ CTxLockRequest.Sound network (oneBlock true) ⟨⟨[⟨⟨5, 0⟩, [], 0⟩], List.replicate 3 ⟨2 ^ 62, []⟩, 1⟩, 0⟩ := by
  constructor
  · intro h
    have hunspent := (h (by decide)).unspent ⟨⟨5, 0⟩, [], 0⟩ (by decide)
    obtain ⟨nPrevoutHeight, nValue, hsome, -⟩ := hunspent
    cases hsome
  · intro h
    exact absurd (h (by decide +kernel)).paid (by decide +kernel)

end Zumy.InstantSend
