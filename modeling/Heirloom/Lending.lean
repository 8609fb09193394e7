import Heirloom.Frame

/-!
# Loans of vault tokens

What the owner of a vault records about a loan: tokens lent to a borrower, and tokens
that are collateral for a loan from outside. Both are records beside the vault; no
tokens move, and the balance of the vault is compared only when a record is made.
-/

namespace Heirloom

open Transaction

/-- The vault, for a call of its owner while the contract is not paused. -/
def loadUnpausedByOwner (vaultId : Nat) (caller : Address) : Contract Vault := do
  assertNotPaused
  requireAuth caller
  let vault ← loadVault vaultId
  require (caller = vault.owner) .notOwner
  return vault

/-! ## Lending -/

def enableTokenLending (vaultId : Nat) (caller borrower : Address) (amount : Int)
    (interestRateBps durationSeconds : Nat) : Contract Unit := do
  let vault ← loadUnpausedByOwner vaultId caller
  require (¬ (amount ≤ 0 ∨ vault.balance < amount)) .insufficientBalance
  let now ← timestamp
  storageSet (.tokenLending vaultId)
    ⟨vaultId, borrower, amount, interestRateBps, now, saturatingAdd64 now durationSeconds, false, 0⟩

/-- The interest of the loan until `now`, or zero if it overflows. -/
def TokenLending.interest (lending : TokenLending) (now : Nat) : Int :=
  let rate := lending.amount * lending.interestRateBps
  let product := rate * ((now - lending.lentAt : Nat) : Int)
  if (i128Min ≤ rate ∧ rate ≤ i128Max) ∧ i128Min ≤ product ∧ product ≤ i128Max then
    product.tdiv (10000 * 365 * 86400)
  else 0

def repayTokenLoan (vaultId : Nat) (caller : Address) : Contract Int := do
  let _ ← loadUnpausedByOwner vaultId caller
  let lending : TokenLending ←
    fromSome (← storageGet (.tokenLending vaultId)) (.error .invalidAmount)
  require (lending.repaid = false) .invalidAmount
  let interest := lending.interest (← timestamp)
  storageSet (.tokenLending vaultId) { lending with repaid := true, interestEarned := interest }
  return interest

/-! ## Collateral -/

def setTokenCollateral (vaultId : Nat) (caller : Address) (collateralAmount loanAmount : Int)
    (collateralRatioBps : Nat) : Contract Unit := do
  let vault ← loadUnpausedByOwner vaultId caller
  require (¬ (collateralAmount ≤ 0 ∨ vault.balance < collateralAmount)) .insufficientBalance
  require (10000 ≤ collateralRatioBps) .invalidBps
  storageSet (.tokenCollateral vaultId)
    ⟨vaultId, collateralAmount, loanAmount, collateralRatioBps, true, ← timestamp⟩

def releaseTokenCollateral (vaultId : Nat) (caller : Address) : Contract Unit := do
  let _ ← loadUnpausedByOwner vaultId caller
  let collateral : TokenCollateral ←
    fromSome (← storageGet (.tokenCollateral vaultId)) (.error .invalidAmount)
  require (collateral.active = true) .invalidAmount
  storageSet (.tokenCollateral vaultId) { collateral with active := false }

/-- The entry points about loans. -/
inductive LendingCall
  | enableTokenLending (vaultId : Nat) (caller borrower : Address) (amount : Int)
      (interestRateBps durationSeconds : Nat)
  | repayTokenLoan (vaultId : Nat) (caller : Address)
  | setTokenCollateral (vaultId : Nat) (caller : Address) (collateralAmount loanAmount : Int)
      (collateralRatioBps : Nat)
  | releaseTokenCollateral (vaultId : Nat) (caller : Address)

def execLending : LendingCall → Contract Unit
  | .enableTokenLending v c b x r d => enableTokenLending v c b x r d
  | .repayTokenLoan v c => do let _ ← repayTokenLoan v c
  | .setTokenCollateral v c x l r => setTokenCollateral v c x l r
  | .releaseTokenCollateral v c => releaseTokenCollateral v c

/-! ## What the calls do -/

section Specs

variable {e : Env} {s : State} {id : Nat} {caller borrower : Address} {amount loan : Int}
  {ratio duration : Nat} {Q : Unit → State → Prop}

@[simp ↓] theorem wp_loadUnpausedByOwner {Q : Vault → State → Prop} :
    wp (loadUnpausedByOwner id caller) Q e s ↔ ((s.get .paused).getD false = false →
      e.authorized caller = true → ∀ v, s.vault id = some v → caller = v.owner → Q v s) := by
  simp [loadUnpausedByOwner]

theorem enableTokenLending_spec :
    wp (enableTokenLending id caller borrower amount ratio duration) (fun _ t =>
      t = s.put (.tokenLending id) ⟨id, borrower, amount, ratio, e.timestamp,
        saturatingAdd64 e.timestamp duration, false, 0⟩ ∧
      ∃ v, s.vault id = some v ∧ 0 < amount ∧ amount ≤ v.balance) e s := by
  simp [enableTokenLending]
  exact fun _ _ v hv _ hpos hle => ⟨v, hv, hpos, hle⟩

theorem repayTokenLoan_spec :
    wp (repayTokenLoan id caller) (fun _ t => ∃ lending,
      s.get (.tokenLending id) = some lending ∧ lending.repaid = false ∧
        t = s.put (.tokenLending id)
          { lending with repaid := true, interestEarned := lending.interest e.timestamp }) e s := by
  simp [repayTokenLoan]
  exact fun _ _ _ _ _ lending hlending hopen => ⟨lending, hlending, hopen, rfl⟩

theorem setTokenCollateral_spec :
    wp (setTokenCollateral id caller amount loan ratio) (fun _ t =>
      t = s.put (.tokenCollateral id) ⟨id, amount, loan, ratio, true, e.timestamp⟩ ∧
      ∃ v, s.vault id = some v ∧ 0 < amount ∧ amount ≤ v.balance ∧ 10000 ≤ ratio) e s := by
  simp [setTokenCollateral]
  exact fun _ _ v hv _ hpos hle hratio => ⟨v, hv, hpos, hle, hratio⟩

theorem releaseTokenCollateral_spec :
    wp (releaseTokenCollateral id caller) (fun _ t => ∃ collateral,
      s.get (.tokenCollateral id) = some collateral ∧ collateral.active = true ∧
        t = s.put (.tokenCollateral id) { collateral with active := false }) e s := by
  simp [releaseTokenCollateral]
  exact fun _ _ _ _ _ collateral hcollateral hactive => ⟨collateral, hcollateral, hactive, rfl⟩

end Specs

/-- What a call about loans may write. -/
def LendingCall.footprint : LendingCall → Footprint
  | .enableTokenLending v _ _ _ _ _ | .repayTokenLoan v _ | .setTokenCollateral v _ _ _ _
  | .releaseTokenCollateral v _ => ⟨[v], [], [.lending]⟩

theorem execLending_frame (c : LendingCall) {e : Env} {s : State} :
    wp (execLending c) (fun _ t => Frame c.footprint s t) e s := by
  cases c with
  | enableTokenLending => simp [execLending, LendingCall.footprint, enableTokenLending]
  | repayTokenLoan => simp [execLending, LendingCall.footprint, repayTokenLoan]
  | setTokenCollateral => simp [execLending, LendingCall.footprint, setTokenCollateral]
  | releaseTokenCollateral => simp [execLending, LendingCall.footprint, releaseTokenCollateral]

end Heirloom
