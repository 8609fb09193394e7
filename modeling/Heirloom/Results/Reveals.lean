import Heirloom.System

/-!
# Who a reveal pays

`reveal_beneficiary` checks that the proof hashes to the commitment and never looks at the claimed
address, so whoever knows the proof chooses who is paid. The bytes of an address are a parameter:
the host defines them.

* `reveal_pays_committed_iff`: a successful reveal pays the address that was committed to, and
  could have paid no other one, exactly if the proof is that of the claimed address and the token
  refuses to pay anybody else.
* `reveal_pays_anyone`: the proof of one address pays another one.
-/

namespace Heirloom

open Transaction Runs TokenLedger

section Reveals

variable {e : Env} {s t : State} {id : Nat} {proof : Bytes} {claim other : Address} {v : Vault}

/-- Everything that a reveal checks about the vault and the proof. -/
structure RevealOpens (e : Env) (s : State) (id : Nat) (proof : Bytes) (v : Vault) : Prop where
  vault : s.vault id = some v
  locked : v.status = .locked
  commitment : ∃ entry, s.get (.beneficiaryCommitment id) = some entry ∧
    e.sha256 proof = entry.commitment
  unrevealed : s.get (.revealedBeneficiary id) = none
  expired : isExpired id e s = .ok (true, s)
  nonempty : v.balance ≠ 0

theorem isExpired_state {b : Bool} (h : isExpired id e s = .ok (b, t)) : t = s :=
  readOnly_isExpired e s _ _ h

theorem ok_recordStateTransition {old new : ReleaseStatus} :
    recordStateTransition id old new claim e s = .ok ((), s.put (.stateTransitionLog id)
      ((s.get (.stateTransitionLog id)).getD [] ++ [⟨old, new, claim, e.timestamp⟩])) := by
  simp [recordStateTransition]

/-- A reveal succeeds exactly if it is open and the claimed address can be paid. -/
theorem ok_revealBeneficiary :
    (∃ t, revealBeneficiary id proof claim e s = .ok ((), t)) ↔ ∃ v, RevealOpens e s id proof v ∧
      Payable e s v.tokenAddress currentContractAddress claim v.balance := by
  simp only [revealBeneficiary, Tx.ok_bind, ok_loadVault, ok_require, ok_storageGet,
    Tx.ok_fromSome, Tx.ok_ask, ok_transfer, ok_saveVault, ok_storageSet]
  constructor
  · rintro ⟨t, _, _, ⟨rfl, rfl⟩, entry, _, ⟨hentry, rfl⟩, _, _, ⟨rfl, rfl⟩, _, _, ⟨hnone, rfl⟩, h⟩
    obtain ⟨v, _, ⟨hv, rfl⟩, _, _, ⟨hlocked, rfl⟩, expired, _, hexpired, _, _, ⟨rfl, rfl⟩, h⟩ := h
    obtain rfl := isExpired_state hexpired
    obtain ⟨_, _, ⟨hbalance, rfl⟩, _, _, ⟨rfl, rfl⟩, _, _, ⟨hhash, rfl⟩, _, _, ⟨hpay, rfl⟩, -⟩ := h
    exact ⟨v, ⟨hv, hlocked, ⟨entry, hentry, hhash⟩, by simpa using hnone, hexpired, hbalance⟩, hpay⟩
  · rintro ⟨v, h, hpay⟩
    obtain ⟨entry, hentry, hhash⟩ := h.commitment
    have hnone : ((s.get (.revealedBeneficiary id)).isSome = false) := by simp [h.unrevealed]
    exact ⟨_, _, _, ⟨rfl, rfl⟩, entry, s, ⟨hentry, rfl⟩, _, s, ⟨rfl, rfl⟩, (), s, ⟨hnone, rfl⟩, v, s,
      ⟨h.vault, rfl⟩, (), s, ⟨h.locked, rfl⟩, true, s, h.expired, (), s, ⟨rfl, rfl⟩, (), s,
      ⟨h.nonempty, rfl⟩, _, s, ⟨rfl, rfl⟩, (), s, ⟨hhash, rfl⟩, (), _, ⟨hpay, rfl⟩, (), _, rfl, (), _,
      rfl, ok_recordStateTransition⟩

theorem payable_other_iff {token dest : Address} {amount : Int}
    (h : Payable e s token currentContractAddress dest amount) :
    Payable e s token currentContractAddress other amount ↔
      e.tokenAccepts token currentContractAddress other amount = true :=
  ⟨fun h' => h'.2.2.1, fun haccepts => ⟨h.1, .inl rfl, haccepts, h.2.2.2⟩⟩

/-- Another address can be claimed with the same proof exactly if the token takes the payment. -/
theorem reveal_other_iff (h : RevealOpens e s id proof v)
    (hpay : Payable e s v.tokenAddress currentContractAddress claim v.balance) :
    (∃ t, revealBeneficiary id proof other e s = .ok ((), t)) ↔
      e.tokenAccepts v.tokenAddress currentContractAddress other v.balance = true := by
  rw [ok_revealBeneficiary]
  constructor
  · rintro ⟨v', h', hpay'⟩
    obtain rfl := Option.some.inj (h.vault.symm.trans h'.vault)
    exact (payable_other_iff hpay).mp hpay'
  · exact fun haccepts => ⟨v, h, (payable_other_iff hpay).mpr haccepts⟩

end Reveals

/-- A successful reveal pays the claimed address the balance. With no collision between the proof
and the bytes of that address, they hash to the commitment and no second reveal with the same proof
from the same state pays another address, exactly if the proof is the bytes of the claimed address
and the token takes the payment to nobody else. -/
theorem reveal_pays_committed_iff (addressBytes : Address → Bytes) {e : Env} {s t : State}
    {id : Nat} {proof : Bytes} {claim : Address} {entry : BeneficiaryCommitment}
    (hcommitted : s.get (.beneficiaryCommitment id) = some entry)
    (hreveal : revealBeneficiary id proof claim e s = .ok ((), t))
    (hinj : e.sha256 (addressBytes claim) = e.sha256 proof → addressBytes claim = proof) :
    ∃ v, s.vault id = some v ∧
      t.ledger.log = s.ledger.log ++ [outgoing v.tokenAddress claim v.balance] ∧
      ((e.sha256 (addressBytes claim) = entry.commitment ∧
          ∀ other u, revealBeneficiary id proof other e s = .ok ((), u) → other = claim) ↔
        (addressBytes claim = proof ∧ ∀ other,
          e.tokenAccepts v.tokenAddress currentContractAddress other v.balance = true →
            other = claim)) := by
  obtain ⟨v, hopens, hpay⟩ := ok_revealBeneficiary.mp ⟨t, hreveal⟩
  obtain ⟨entry', hentry, hhash⟩ := hopens.commitment
  obtain rfl := Option.some.inj (hcommitted.symm.trans hentry)
  obtain ⟨v', htx, -⟩ := revealBeneficiary_spec _ _ hreveal
  obtain rfl := Option.some.inj (hopens.vault.symm.trans htx.before)
  refine ⟨v, hopens.vault, by rw [htx.ledger]; simp, ?_⟩
  constructor
  · rintro ⟨hclaim, honly⟩
    refine ⟨hinj (hclaim.trans hhash.symm), fun other haccepts => ?_⟩
    obtain ⟨u, hu⟩ := (reveal_other_iff hopens hpay).mpr haccepts
    exact honly other u hu
  · rintro ⟨hbytes, hothers⟩
    refine ⟨hbytes ▸ hhash, fun other u hu => ?_⟩
    exact hothers other ((reveal_other_iff hopens hpay).mp ⟨u, hu⟩)

/-- One byte for an address, and a hash that keeps the first byte. -/
def idByte (a : Address) : Bytes := [UInt8.ofNat a.id]

def firstByteHash (b : Bytes) : Bytes32 := Vector.replicate 32 (b.headD 0)

/-- An environment in which the token pays the addresses that `accepts` says. -/
def hashingEnv (accepts : Address → Bool) : Env :=
  { signedBy [] 2000 with
    sha256 := firstByteHash
    tokenAccepts := fun _ _ dest _ => accepts dest }

/-- The vault has committed to address 7, has 500 and has expired. -/
def committedCalls : List (Env × Call) :=
  [(signedBy [⟨1⟩] 0, .vault (.createVault ⟨1⟩ ⟨2⟩ 1000 none)),
    (signedBy [⟨1⟩] 0, .vault (.deposit 1 ⟨1⟩ 500)),
    (signedBy [⟨1⟩] 0, .heir (.commitBeneficiary 1 ⟨1⟩ (firstByteHash (idByte ⟨7⟩))))]

/-- A token that pays only address 7. -/
theorem reveal_pays_committed_example : ∃ (w : World) (e : Env) (v : Vault), Reachable w ∧
    w.state.vault 1 = some v ∧ v.balance = 500 ∧
      (∃ t, revealBeneficiary 1 (idByte ⟨7⟩) ⟨7⟩ e w.state = .ok ((), t)) ∧
      ∀ other u, revealBeneficiary 1 (idByte ⟨7⟩) other e w.state = .ok ((), u) → other = ⟨7⟩ := by
  have hplay : (play (initialised ⟨8⟩ ⟨9⟩) committedCalls).any (fun w =>
      succeeded (revealBeneficiary 1 (idByte ⟨7⟩) ⟨7⟩ (hashingEnv (· = ⟨7⟩)) w.state) &&
        (w.state.vault 1).any fun v => decide (v.balance = 500 ∧
          (w.state.get (.beneficiaryCommitment 1)).isSome = true)) = true := by
    decide +kernel
  obtain ⟨w, hw, hchecks⟩ := (Option.any_eq_true _ _).mp hplay
  simp only [Bool.and_eq_true, Option.any_eq_true, decide_eq_true_eq] at hchecks
  obtain ⟨hsucceeds, v, hv, hbalance, hsome⟩ := hchecks
  obtain ⟨entry, hentry⟩ := Option.isSome_iff_exists.mp hsome
  obtain ⟨⟨⟩, t, ht⟩ := ok_of_succeeded hsucceeds
  obtain ⟨v', hv', -, hiff⟩ := reveal_pays_committed_iff idByte hentry ht fun _ => rfl
  have hothers : ∀ other, decide (other = (⟨7⟩ : Address)) = true → other = ⟨7⟩ :=
    fun other => of_decide_eq_true
  exact ⟨w, hashingEnv (· = ⟨7⟩), v, reachable_of_play hw, hv, hbalance, ⟨t, ht⟩,
    (hiff.mpr ⟨rfl, hothers⟩).2⟩

/-- The proof of address 7 pays address 5. -/
theorem reveal_pays_anyone : ¬ ∀ (addressBytes : Address → Bytes) (w : World) (e : Env) (t : State)
    (id : Nat) (proof : Bytes) (claim : Address) (entry : BeneficiaryCommitment), Reachable w →
    w.state.get (.beneficiaryCommitment id) = some entry →
    revealBeneficiary id proof claim e w.state = .ok ((), t) →
    (e.sha256 (addressBytes claim) = e.sha256 proof → addressBytes claim = proof) →
    e.sha256 (addressBytes claim) = entry.commitment := by
  have hplay : (play (initialised ⟨8⟩ ⟨9⟩) committedCalls).any (fun w =>
      succeeded (revealBeneficiary 1 (idByte ⟨7⟩) ⟨5⟩ (hashingEnv fun _ => true) w.state) &&
        (w.state.get (.beneficiaryCommitment 1)).any fun entry =>
          decide (entry.commitment = firstByteHash (idByte ⟨7⟩))) = true := by
    decide +kernel
  obtain ⟨w, hw, hchecks⟩ := (Option.any_eq_true _ _).mp hplay
  simp only [Bool.and_eq_true, Option.any_eq_true, decide_eq_true_eq] at hchecks
  obtain ⟨hsucceeds, entry, hentry, hcommitment⟩ := hchecks
  obtain ⟨⟨⟩, t, ht⟩ := ok_of_succeeded hsucceeds
  have hdiffer : firstByteHash (idByte ⟨5⟩) ≠ firstByteHash (idByte ⟨7⟩) := by decide
  intro h
  have hpaid := h idByte w _ t 1 (idByte ⟨7⟩) ⟨5⟩ entry (reachable_of_play hw) hentry ht
    fun hsame => absurd hsame hdiffer
  exact hdiffer (hpaid.trans hcommitment)

end Heirloom
