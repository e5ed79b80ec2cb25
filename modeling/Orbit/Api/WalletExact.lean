import Orbit.Api.WalletAudit

/-!
# The sum of an adjustment

One call of `AdminWalletsService.adjust` of
`apps/api/src/admin/wallets/admin-wallets.service.ts` that nobody else disturbs. The columns
hold 28 digits, and `decimal.js` rounds the sum to 20 of them; what it gives has no more
decimals than the sum, so that the column rounds nothing, and has its sign.

* `adjust_exact_iff`: a call changes its field by exactly the delta, and the other field not at
  all, or is refused for a negative result, exactly when the sum has at most 20 significant
  digits or is negative.
-/

namespace Orbit.AdminWallets

open Admin

/-- A value of a `numeric(28, 12)` column under its check. -/
def Stored (x : ℚ) : Prop := ∃ z : ℕ, x = (z : ℤ) / 10 ^ 12 ∧ z < 10 ^ 28

/-- The value has at most 20 significant digits. -/
def TwentyDigits (x : ℚ) : Prop := ∃ d j : ℤ, |d| < 10 ^ 20 ∧ x = d * 10 ^ j

/-- A call to its end, with nothing in between. -/
def adjusting (newDecimal : String → Option Amount) (db : Db) (admin : KeycloakClaims)
    (userId asset : String) (input : AdjustInput) (ip ua : Option String) : System :=
  run newDecimal (.start db)
    [.adjust admin userId asset input ip ua, .resume 0 .ok, .resume 0 .ok, .resume 0 .ok]

/-- The tables with one field of a wallet set. -/
def withField (db : Db) (userId asset : String) (field : WalletField) (x : ℚ) : Db :=
  { db with wallets := Table.modify (userId, asset) (setField field x) db.wallets }

/-- **An exact adjustment** of the wallet `w`: a sum that the column can hold is what
it holds afterwards, with nothing else changed, and a negative one is refused, with
nothing changed at all. -/
structure Adjusts (db : Db) (userId asset : String) (w : Wallet) (field : WalletField) (delta : ℚ)
    (s : System) : Prop where
  exact : Stored (getField field w + delta) →
    s.db = withField db userId asset field (getField field w + delta) ∧
      ∃ c after, s.calls = [c] ∧ c.phase = .returned after
  negative : getField field w + delta < 0 →
    s.db = db ∧ s.log = [] ∧ ∃ c e, s.calls = [c] ∧ c.phase = .refused e

section Exact

variable {newDecimal : String → Option Amount} {db : Db}
    {admin : KeycloakClaims} {userId asset : String}
  {input : AdjustInput} {ip ua : Option String} {w : Wallet} {field : WalletField} {delta x : ℚ}

/-! ## The update -/

theorem Stored.nonneg (h : Stored x) : 0 ≤ x := by
  obtain ⟨z, rfl, -⟩ := h
  positivity

/-- What the sum is rounded to fits the column, but for its size. -/
theorem numeric_plus {a : ℚ} (ha : Stored a) (hdelta : ∃ m : ℤ, delta = m / 10 ^ 12) :
    Precision.numeric (plus a delta) = plus a delta := by
  obtain ⟨z, rfl, -⟩ := ha
  obtain ⟨m, rfl⟩ := hdelta
  have hsum : ((z : ℤ) : ℚ) / 10 ^ 12 + m / 10 ^ 12 = ((z + m : ℤ) : ℚ) / 10 ^ 12 := by
    push_cast
    ring
  rw [plus, Precision.numeric, hsum]
  exact Decimal.toScale_toPrecision _

variable (field x) in
theorem wallet?_withField (hw : db.wallet? userId asset = some w) :
    (withField db userId asset field x).wallet? userId asset = some (setField field x w) := by
  have hkey : ∀ w, Table.key (setField field x w) = Table.key w := by
    intro w
    cases field <;> rfl
  unfold Db.wallet? at hw ⊢
  rw [withField, Table.find?_modify_self hkey, hw, Option.map_some]

variable (field) in
theorem update_of_stored (hw : db.wallet? userId asset = some w)
    (hb : 0 ≤ w.balance) (hl : 0 ≤ w.locked)
    (hx : 0 ≤ x) (hnumeric : Precision.numeric x = x) :
    update userId asset field (.finite x) db =
      if x < 10 ^ 16 then some (setField field x w,
      withField db userId asset field x) else none := by
  have hcheck : (setField field x w).NonNegative := by
    cases field
    · exact ⟨hx, hl⟩
    · exact ⟨hb, hx⟩
  have hafter := wallet?_withField field x hw
  simp only [update]
  rw [hnumeric]
  by_cases hlt : x < 10 ^ 16
  · simp only [if_pos hlt, setWallet, hw, if_pos hcheck]
    simp only [withField] at hafter
    simp [Except.toOption, hafter, withField]
  · simp only [if_neg hlt]

/-! ## The call -/

/-- A sum that comes out negative is refused. -/
theorem adjusting_negative (hvalid : validate newDecimal input = .ok (field, .finite delta))
    (hw : db.wallet? userId asset = some w) (hneg : plus (getField field w) delta < 0) :
    (adjusting newDecimal db admin userId asset input ip ua).db = db ∧
      (adjusting newDecimal db admin userId asset input ip ua).log = [] ∧
      ∃ c e, (adjusting newDecimal db admin userId asset input ip ua).calls = [c] ∧
        c.phase = .refused e := by
  simp [adjusting, run, step, System.start, hvalid, Call.resume, Call.found, hw,
    Amount.plus, Amount.negative, hneg]

variable (admin ip ua) in
/-- Any other sum is stored if it is not too large. -/
theorem adjusting_nonneg (hvalid : validate newDecimal input = .ok (field, .finite delta))
    (hw : db.wallet? userId asset = some w) (hb : 0 ≤ w.balance) (hl : 0 ≤ w.locked)
    (hsum : 0 ≤ plus (getField field w) delta)
    (hnumeric : Precision.numeric (plus (getField field w) delta) = plus (getField field w) delta) :
    if plus (getField field w) delta < 10 ^ 16 then
      (adjusting newDecimal db admin userId asset input ip ua).db =
          withField db userId asset field (plus (getField field w) delta) ∧
        ∃ c after, (adjusting newDecimal db admin userId asset input ip ua).calls = [c] ∧
          c.phase = .returned after
    else
      ∃ c e, (adjusting newDecimal db admin userId asset input ip ua).calls = [c] ∧
      c.phase = .refused e := by
  have hupdate := update_of_stored field hw hb hl hsum hnumeric
  have hsign : ¬plus (getField field w) delta < 0 := not_lt.mpr hsum
  split_ifs with hlt
  · rw [if_pos hlt] at hupdate
    simp [adjusting, run, step, System.start, hvalid, Call.resume, Call.found, hw, Amount.plus,
      Amount.negative, hsign, hupdate]
  · rw [if_neg hlt] at hupdate
    simp [adjusting, run, step, System.start, hvalid, Call.resume, Call.found, hw, Amount.plus,
      Amount.negative, hsign, hupdate]

/-- **When an adjustment is exact**: the sum has at most 20 significant digits, is negative, or does
not fit the column. -/
theorem adjust_exact_iff (newDecimal : String → Option Amount) (db : Db) (admin : KeycloakClaims)
    (userId asset : String) (input : AdjustInput) (ip ua : Option String) (w : Wallet)
    (hw : db.wallet? userId asset = some w) (hb : Stored w.balance) (hl : Stored w.locked)
    (field : WalletField) (delta : ℚ) (hvalid : validate newDecimal input =
      .ok (field, .finite delta))
    (hdelta : ∃ m : ℤ, delta = m / 10 ^ 12) :
    Adjusts db userId asset w field delta (adjusting newDecimal db admin userId asset input ip ua) ↔
      (Stored (getField field w + delta) → TwentyDigits (getField field w + delta)) := by
  have ha : Stored (getField field w) := by
    cases field
    · exact hb
    · exact hl
  have hnumeric := numeric_plus ha hdelta
  have hrun : 0 ≤ getField field w + delta → _ := fun hsum =>
    adjusting_nonneg admin ip ua hvalid hw hb.nonneg hl.nonneg
      (Decimal.toPrecision_nonneg hsum) hnumeric
  constructor
  · intro h hs
    obtain ⟨hdb, c, after, hc, hreturned⟩ := h.exact hs
    refine (Decimal.toPrecision_eq_self_iff (by norm_num) hs.nonneg).mp ?_
    have hcases := hrun hs.nonneg
    split_ifs at hcases
    · -- what is stored is the rounded sum
      have hfields := (wallet?_withField _ _ hw).symm.trans
        (hdb ▸ hcases.1 ▸ wallet?_withField _ _ hw)
      have heq := congrArg (getField field) (Option.some.inj hfields)
      rw [getField_setField_self, getField_setField_self] at heq
      exact heq.symm
    · obtain ⟨c', e, hc', hrefused⟩ := hcases
      obtain rfl : c = c' := by simpa using hc.symm.trans hc'
      rw [hreturned] at hrefused
      cases hrefused
  · intro hcond
    refine ⟨fun hs => ?_, fun hneg => ?_⟩
    · have hplus : plus (getField field w) delta = getField field w + delta :=
        (Decimal.toPrecision_eq_self_iff (by norm_num) hs.nonneg).mpr (hcond hs)
      have hlt : getField field w + delta < 10 ^ 16 := by
        obtain ⟨z, hz, hsmall⟩ := hs
        rw [hz, div_lt_iff₀ (by norm_num)]
        exact_mod_cast hsmall
      have hcases := hrun hs.nonneg
      rwa [hplus, if_pos hlt] at hcases
    · exact adjusting_negative hvalid hw (Decimal.toPrecision_lt_zero (by norm_num) hneg)

end Exact

/-! ## Small and large balances -/

namespace AdjustSample

def bonus : AdjustInput := ⟨"100", "balance", some "bonus"⟩

/-- A balance with 22 digits. -/
def large : ℚ := 1234567890 + 1 / 10 ^ 12

end AdjustSample

open AdjustSample in
/-- A round balance takes its bonus. -/
theorem adjust_exact_small :
    (((db 1000 5).wallet? "alice" "USDT" = some ⟨"alice", "USDT", 1000, 5⟩ ∧
    Stored 1000 ∧ Stored 5) ∧
      validate newDecimal bonus = .ok (.balance, .finite 100) ∧ ∃ m : ℤ, (100 : ℚ) = m / 10 ^ 12) ∧
    Adjusts (db 1000 5) "alice" "USDT" ⟨"alice", "USDT", 1000, 5⟩ .balance 100
      (adjusting newDecimal (db 1000 5) admin "alice" "USDT" bonus none none) := by
  have hw : (db 1000 5).wallet? "alice" "USDT" = some ⟨"alice", "USDT", 1000, 5⟩ :=
    by decide +kernel
  have hb : Stored 1000 := ⟨1000 * 10 ^ 12, by norm_num, by norm_num⟩
  have hl : Stored 5 := ⟨5 * 10 ^ 12, by norm_num, by norm_num⟩
  have hvalid : validate newDecimal bonus = .ok (.balance, .finite 100) := by decide +kernel
  have hdelta : ∃ m : ℤ, (100 : ℚ) = m / 10 ^ 12 := ⟨100 * 10 ^ 12, by norm_num⟩
  refine ⟨⟨⟨hw, hb, hl⟩, hvalid, hdelta⟩, ?_⟩
  refine (adjust_exact_iff newDecimal (db 1000 5) admin "alice" "USDT" bonus none
    none _ hw hb hl .balance
    100 hvalid hdelta).mpr fun _ => ⟨1100, 0, by norm_num, ?_⟩
  norm_num [getField]

open AdjustSample in
/-- The last digit of a large one is lost. -/
theorem adjust_loses_digits : Stored large ∧ Stored (large + 100) ∧
    ¬Adjusts (db large 0) "alice" "USDT" ⟨"alice", "USDT", large, 0⟩ .balance 100
      (adjusting newDecimal (db large 0) admin "alice" "USDT" bonus none none) := by
  have hsum : Stored (large + 100) := ⟨1234567990 * 10 ^ 12 + 1, by norm_num [large], by norm_num⟩
  refine ⟨⟨1234567890 * 10 ^ 12 + 1, by norm_num [large], by norm_num⟩, hsum, fun h => ?_⟩
  obtain ⟨hdb, -⟩ := h.exact hsum
  have hwallet := congrArg (fun db : Db => db.wallet? "alice" "USDT") hdb
  revert hwallet
  decide +kernel

end Orbit.AdminWallets
