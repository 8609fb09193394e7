import Heirloom.Common
import Mathlib.Tactic.MkIffOfInductiveProp

/-!
# Frames

What a call leaves alone. A `Footprint` names the vaults that a call may touch,
the parts of their records and the areas of the storage; `Frame f s t` says that
nothing else differs between `s` and `t`. The frame of a call is proved by
computing its weakest precondition: the rules here drop every write that the
footprint covers.
-/

namespace Heirloom

open Transaction TypedStore

/-- The parts of a state that footprints tell apart, besides the storage areas. -/
inductive Part
  | owner
  | beneficiary
  | balance
  /-- The time of the last check-in. -/
  | deadline
  /-- The check-in interval. -/
  | interval
  | status
  /-- The beneficiary list of a locked vault. -/
  | heirs
  /-- The beneficiary list, whatever the status. -/
  | allocations
  | burn
  /-- The spending limit. -/
  | limit
  /-- The passkey in the record. -/
  | passkey
  /-- Which vaults there are. -/
  | creation
  /-- The token ledger. -/
  | funds
deriving DecidableEq

/-- What a call may write. -/
structure Footprint where
  vaults : List Nat
  parts : List Part
  areas : List Area

/-- `w` is `v` but for the parts `ps`. The token of a vault is never changed, and no
change of its status locks it again. -/
@[mk_iff]
structure Vault.AgreeOff (ps : List Part) (v w : Vault) : Prop where
  owner : .owner ∈ ps ∨ w.owner = v.owner
  beneficiary : .beneficiary ∈ ps ∨ w.beneficiary = v.beneficiary
  balance : .balance ∈ ps ∨ w.balance = v.balance
  deadline : .deadline ∈ ps ∨ w.lastCheckIn = v.lastCheckIn
  interval : .interval ∈ ps ∨ w.checkInInterval = v.checkInInterval
  status : w.status = v.status ∨ (.status ∈ ps ∧ w.status ≠ .locked)
  heirs : w.beneficiaries = v.beneficiaries ∨ (.heirs ∈ ps ∧ v.status = .locked) ∨
    .allocations ∈ ps
  burn : .burn ∈ ps ∨ w.burnPercentage = v.burnPercentage
  limit : .limit ∈ ps ∨ w.spendingLimit = v.spendingLimit
  passkey : .passkey ∈ ps ∨ w.passkeyHash = v.passkeyHash
  token : w.tokenAddress = v.tokenAddress
  penalty : w.inactivityPenaltyBps = v.inactivityPenaltyBps

/-- The key is one that a call with this footprint may write. -/
def Footprint.Covers (f : Footprint) (k : DataKey) : Prop :=
  k.area ∈ .vaults :: f.areas ∧ ∀ i, k.vaultId? = some i → i ∈ f.vaults

/-- `w` may take the place of what is stored. -/
def Footprint.Permits (f : Footprint) (o : Option Vault) (w : Vault) : Prop :=
  match o with
  | some v => v.AgreeOff f.parts w
  | none => .creation ∈ f.parts

/-- `s` and `t` differ at most in what the footprint `f` names. -/
structure Frame (f : Footprint) (s t : State) : Prop where
  keys : Store.SameOff f.Covers s.storage t.storage
  kept : ∀ id v, s.vault id = some v → ∃ w, t.vault id = some w ∧ v.AgreeOff f.parts w
  created : .creation ∈ f.parts ∨ ∀ id, s.vault id = none → t.vault id = none
  funds : .funds ∈ f.parts ∨ t.ledger = s.ledger

section Frames

variable {f : Footprint} {s t u : State} {k : DataKey} {x : k.Value} {v w z : Vault} {id : Nat}
  {token source dest : Address} {amount : Int}

@[simp] theorem permits_some : f.Permits (some v) w ↔ v.AgreeOff f.parts w := Iff.rfl

@[simp] theorem permits_none : f.Permits none w ↔ .creation ∈ f.parts := Iff.rfl

namespace Vault.AgreeOff

variable {ps : List Part}

@[simp] theorem refl : v.AgreeOff ps v := by
  simp [Vault.agreeOff_iff]

theorem trans (h : v.AgreeOff ps w) (h' : w.AgreeOff ps z) : v.AgreeOff ps z where
  owner := h.owner.elim .inl fun e => h'.owner.imp_right (·.trans e)
  beneficiary := h.beneficiary.elim .inl fun e => h'.beneficiary.imp_right (·.trans e)
  balance := h.balance.elim .inl fun e => h'.balance.imp_right (·.trans e)
  deadline := h.deadline.elim .inl fun e => h'.deadline.imp_right (·.trans e)
  interval := h.interval.elim .inl fun e => h'.interval.imp_right (·.trans e)
  status := h'.status.elim (fun e' => h.status.imp e'.trans fun e => ⟨e.1, e' ▸ e.2⟩) .inr
  heirs := by
    obtain e | ⟨hps, hlocked⟩ | hps := h.heirs
    · -- a record that is locked now was locked before
      refine h'.heirs.imp (·.trans e) (Or.imp_left fun e' => ⟨e'.1, ?_⟩)
      exact (h.status.resolve_right fun hc => hc.2 e'.2) ▸ e'.2
    · exact .inr (.inl ⟨hps, hlocked⟩)
    · exact .inr (.inr hps)
  burn := h.burn.elim .inl fun e => h'.burn.imp_right (·.trans e)
  limit := h.limit.elim .inl fun e => h'.limit.imp_right (·.trans e)
  passkey := h.passkey.elim .inl fun e => h'.passkey.imp_right (·.trans e)
  token := h'.token.trans h.token
  penalty := h'.penalty.trans h.penalty

theorem mono {qs : List Part} (h : v.AgreeOff ps w) (hsub : ∀ p ∈ ps, p ∈ qs) :
    v.AgreeOff qs w where
  owner := h.owner.imp_left (hsub _)
  beneficiary := h.beneficiary.imp_left (hsub _)
  balance := h.balance.imp_left (hsub _)
  deadline := h.deadline.imp_left (hsub _)
  interval := h.interval.imp_left (hsub _)
  status := h.status.imp_right fun e => ⟨hsub _ e.1, e.2⟩
  heirs := h.heirs.imp_right (Or.imp (And.imp_left (hsub _)) (hsub _))
  burn := h.burn.imp_left (hsub _)
  limit := h.limit.imp_left (hsub _)
  passkey := h.passkey.imp_left (hsub _)
  token := h.token
  penalty := h.penalty

end Vault.AgreeOff

namespace Frame

@[simp] theorem refl : Frame f s s :=
  ⟨Store.sameOff_refl, fun _ v hv => ⟨v, hv, .refl⟩, .inr fun _ => id, .inr rfl⟩

theorem trans (h : Frame f s t) (h' : Frame f t u) : Frame f s u where
  keys := h.keys.trans h'.keys
  kept := by
    intro id v hv
    obtain ⟨w, hw, hvw⟩ := h.kept id v hv
    obtain ⟨z, hz, hwz⟩ := h'.kept id w hw
    exact ⟨z, hz, hvw.trans hwz⟩
  created := h.created.elim .inl fun hc => h'.created.imp_right fun hc' id hs => hc' id (hc id hs)
  funds := h.funds.elim .inl fun hf => h'.funds.imp_right (·.trans hf)

theorem mono {g : Footprint} (h : Frame f s t) (hvaults : ∀ i ∈ f.vaults, i ∈ g.vaults)
    (hparts : ∀ p ∈ f.parts, p ∈ g.parts) (hareas : ∀ a ∈ f.areas, a ∈ g.areas) :
    Frame g s t where
  keys := fun k hk => h.keys k fun hc => hk
    ⟨(List.mem_cons.mp hc.1).elim (by simp +contextual) fun ha => .tail _ (hareas _ ha),
      fun i hi => hvaults i (hc.2 i hi)⟩
  kept := fun id v hv => (h.kept id v hv).imp fun _ hw => ⟨hw.1, hw.2.mono hparts⟩
  created := h.created.imp_left (hparts _)
  funds := h.funds.imp_left (hparts _)

@[simp ↓] theorem put (hk : k.area ∈ f.areas) (hid : ∀ i, k.vaultId? = some i → i ∈ f.vaults)
    (hvault : ∀ i, k ≠ .vault i) : Frame f s (t.put k x) ↔ Frame f s t := by
  have hkeys : Store.SameOff f.Covers s.storage (t.put k x).storage ↔
      Store.SameOff f.Covers s.storage t.storage :=
    Store.sameOff_put ⟨List.mem_cons_of_mem _ hk, hid⟩
  constructor
  · rintro ⟨ha, hkept, hc, hf⟩
    exact ⟨hkeys.mp ha, by simpa [hvault] using hkept, by simpa [hvault] using hc, hf⟩
  · rintro ⟨ha, hkept, hc, hf⟩
    exact ⟨hkeys.mpr ha, by simpa [hvault] using hkept, by simpa [hvault] using hc, hf⟩

@[simp ↓] theorem erase (hk : k.area ∈ f.areas) (hid : ∀ i, k.vaultId? = some i → i ∈ f.vaults)
    (hvault : ∀ i, k ≠ .vault i) : Frame f s (t.erase k) ↔ Frame f s t := by
  have hkeys : Store.SameOff f.Covers s.storage (t.erase k).storage ↔
      Store.SameOff f.Covers s.storage t.storage :=
    Store.sameOff_erase ⟨List.mem_cons_of_mem _ hk, hid⟩
  constructor
  · rintro ⟨ha, hkept, hc, hf⟩
    exact ⟨hkeys.mp ha, by simpa [hvault] using hkept, by simpa [hvault] using hc, hf⟩
  · rintro ⟨ha, hkept, hc, hf⟩
    exact ⟨hkeys.mpr ha, by simpa [hvault] using hkept, by simpa [hvault] using hc, hf⟩

@[simp ↓] theorem assign {o : Option k.Value} (hk : k.area ∈ f.areas)
    (hid : ∀ i, k.vaultId? = some i → i ∈ f.vaults) (hvault : ∀ i, k ≠ .vault i) :
    Frame f s (t.assign k o) ↔ Frame f s t := by
  cases o with
  | none => exact erase hk hid hvault
  | some x => exact put hk hid hvault

@[simp ↓] theorem pay (hf : .funds ∈ f.parts) :
    Frame f s (t.pay token source dest amount) ↔ Frame f s t :=
  ⟨fun h => ⟨h.keys, h.kept, h.created, .inl hf⟩, fun h => ⟨h.keys, h.kept, h.created, .inl hf⟩⟩

/-- Saving a vault is within the frame if the new record may replace the old one. -/
@[simp ↓] theorem put_vault (hid : id ∈ f.vaults) (h : Frame f s t) :
    Frame f s (t.put (.vault id) w) ↔ f.Permits (s.vault id) w := by
  constructor
  · intro h'
    cases hs : s.vault id with
    | none =>
        refine h'.created.resolve_right fun hc => ?_
        simpa using hc id hs
    | some v =>
        obtain ⟨w', hw', hvw⟩ := h'.kept id v hs
        simp only [State.vault_put_vault, ↓reduceIte, Option.some.injEq] at hw'
        exact hw' ▸ hvw
  · intro hp
    have hcovers : f.Covers (.vault id) := by simpa [Footprint.Covers] using hid
    refine ⟨(Store.sameOff_put hcovers).mpr h.keys, fun i v hv => ?_, ?_, h.funds⟩
    · by_cases hi : i = id
      · subst hi
        exact ⟨w, by simp, by simpa [hv] using hp⟩
      · simpa [hi] using h.kept i v hv
    · by_cases hc : .creation ∈ f.parts
      · exact .inl hc
      · refine .inr fun i hi => ?_
        have hne : i ≠ id := fun e => hc (by simpa [← e, hi] using hp)
        simpa [hne] using h.created.resolve_left hc i hi

/-- Saving a change of the present record, within the parts of the footprint. -/
theorem save (h : Frame f s t) (hid : id ∈ f.vaults) (hv : t.vault id = some v)
    (hvw : v.AgreeOff f.parts w) : Frame f s (t.put (.vault id) w) := by
  refine (put_vault hid h).mpr ?_
  cases hs : s.vault id with
  | none =>
      by_contra hc
      simp [h.created.resolve_left hc id hs] at hv
  | some v₀ =>
      obtain ⟨v', hv', hagree⟩ := h.kept id v₀ hs
      obtain rfl : v' = v := by simpa [hv] using hv'.symm
      exact hagree.trans hvw

/-- A loop over vaults of the footprint, each round of which stays within it. -/
theorem forEach {e : Env} {ids : List Nat} {m : Nat → Contract Unit}
    (hids : ∀ i ∈ ids, i ∈ f.vaults)
    (hstep : ∀ i ∈ f.vaults, ∀ t, Frame f s t → wp (m i) (fun _ u => Frame f s u) e t) :
    wp (Tx.forEach ids m) (fun _ t => Frame f s t) e s :=
  Tx.wp_forEach (fun i hi t ht => hstep i (hids i hi) t ht) .refl

/-- A key outside the areas of the footprint keeps its value. -/
theorem get_of_area (h : Frame f s t) (hk : k.area ∉ .vaults :: f.areas) : t.get k = s.get k :=
  h.keys k fun hc => hk hc.1

/-- The keys of a vault outside the footprint keep their values. -/
theorem get_of_vault (h : Frame f s t) (hk : k.vaultId? = some id) (hid : id ∉ f.vaults) :
    t.get k = s.get k :=
  h.keys k fun hc => hid (hc.2 id hk)

theorem vault_eq (h : Frame f s t) (hid : id ∉ f.vaults) : t.vault id = s.vault id :=
  h.get_of_vault (k := .vault id) rfl hid

/-- Where no vault is created, every record of `t` has one of `s` before it. -/
theorem vault_before (h : Frame f s t) (hc : .creation ∉ f.parts) (hw : t.vault id = some w) :
    ∃ v, s.vault id = some v ∧ v.AgreeOff f.parts w := by
  cases hv : s.vault id with
  | none => simp [h.created.resolve_left hc id hv] at hw
  | some v =>
      obtain ⟨w', hw', hvw⟩ := h.kept id v hv
      obtain rfl : w' = w := by simpa [hw'] using hw
      exact ⟨v, rfl, hvw⟩

end Frame

end Frames

/-! ## Effects on one vault -/

abbrev Log := List (TokenLedger.Transfer Address Address)

/-- The state after the transfers. -/
def State.transferAll (s : State) (log : Log) : State :=
  { s with ledger := s.ledger.transferAll log }

/-- A transfer out of the contract. -/
def outgoing (token dest : Address) (amount : Int) : TokenLedger.Transfer Address Address :=
  ⟨token, currentContractAddress, dest, amount⟩

/-- A transfer into the contract. -/
def incoming (token source : Address) (amount : Int) : TokenLedger.Transfer Address Address :=
  ⟨token, source, currentContractAddress, amount⟩

/-- The transfers are in the given token and none is negative. -/
def Fair (token : Address) (log : Log) : Prop := ∀ x ∈ log, x.token = token ∧ 0 ≤ x.amount

/-- What the transfers bring into the contract, less what they take out of it. -/
def flow (log : Log) : Int := TokenLedger.Ledger.flow log currentContractAddress

/-- The call replaced the record `v` of vault `id` by `w` and made the transfers
`log`, all in the vault's token; the other vaults are as they were. -/
structure Transacts (id : Nat) (v w : Vault) (log : Log) (s t : State) : Prop where
  before : s.vault id = some v
  after : ∀ i, t.vault i = if i = id then some w else s.vault i
  token : w.tokenAddress = v.tokenAddress
  ledger : t.ledger = s.ledger.transferAll log
  fair : Fair v.tokenAddress log

section Effects

variable {s t : State} {id : Nat} {v w : Vault} {k : DataKey} {x : k.Value} {log log' : Log}
  {token a : Address} {amount : Int}

namespace State

@[simp] theorem get_transferAll : (s.transferAll log).get k = s.get k := rfl

@[simp] theorem vault_transferAll {i : Nat} : (s.transferAll log).vault i = s.vault i := rfl

@[simp] theorem ledger_transferAll :
    (s.transferAll log).ledger = s.ledger.transferAll log := rfl

@[simp] theorem transferAll_nil : s.transferAll [] = s := rfl

theorem transferAll_append : s.transferAll (log ++ log') = (s.transferAll log).transferAll log' := by
  simp [transferAll, TokenLedger.Ledger.transferAll_append]

theorem pay_eq_transferAll :
    s.pay token currentContractAddress a amount = s.transferAll [outgoing token a amount] := rfl

theorem pay_transferAll :
    (s.transferAll log).pay token currentContractAddress a amount =
      s.transferAll (log ++ [outgoing token a amount]) := by
  rw [pay_eq_transferAll, transferAll_append]

end State

@[simp ↓] theorem Frame.transferAll {f : Footprint} (hf : .funds ∈ f.parts) :
    Frame f s (t.transferAll log) ↔ Frame f s t :=
  ⟨fun h => ⟨h.keys, h.kept, h.created, .inl hf⟩, fun h => ⟨h.keys, h.kept, h.created, .inl hf⟩⟩

@[simp] theorem flow_nil : flow [] = 0 := rfl

@[simp] theorem flow_append : flow (log ++ log') = flow log + flow log' :=
  TokenLedger.Ledger.flow_append

@[simp] theorem flow_outgoing : flow [outgoing token a amount] = -amount := by
  simp [flow, outgoing, TokenLedger.Transfer.flow]

theorem flow_incoming (ha : a ≠ currentContractAddress) :
    flow [incoming token a amount] = amount := by
  simp [flow, incoming, TokenLedger.Transfer.flow, ha]

@[simp] theorem fair_nil : Fair token [] := by
  simp [Fair]

theorem fair_outgoing (h : 0 ≤ amount) : Fair token [outgoing token a amount] := by
  simpa [Fair, outgoing] using h

theorem fair_incoming (h : 0 ≤ amount) : Fair token [incoming token a amount] := by
  simpa [Fair, incoming] using h

theorem Fair.append (h : Fair token log) (h' : Fair token log') : Fair token (log ++ log') :=
  fun x hx => (List.mem_append.mp hx).elim (h x) (h' x)

namespace Transacts

/-- Saving `w` over `v`, after the transfers `log` and nothing else. -/
theorem save (hv : s.vault id = some v) (ht : ∀ i, t.vault i = s.vault i)
    (hlog : t.ledger = s.ledger.transferAll log) (hfair : Fair v.tokenAddress log)
    (hw : w.tokenAddress = v.tokenAddress) : Transacts id v w log s (t.put (.vault id) w) :=
  ⟨hv, fun i => by simp [ht i], hw, hlog, hfair⟩

/-- The effect can be counted from an earlier state with the same vaults and funds. -/
theorem congr_left {u : State} (h : Transacts id v w log t u) (ht : ∀ i, t.vault i = s.vault i)
    (hledger : t.ledger = s.ledger) : Transacts id v w log s u :=
  ⟨ht id ▸ h.before, fun i => ht i ▸ h.after i, h.token, hledger ▸ h.ledger, h.fair⟩

@[simp ↓] theorem put_iff (hk : ∀ i, k ≠ .vault i) :
    Transacts id v w log s (t.put k x) ↔ Transacts id v w log s t := by
  constructor
  · rintro ⟨hv, hafter, htoken, hlog, hfair⟩
    exact ⟨hv, by simpa [hk] using hafter, htoken, hlog, hfair⟩
  · rintro ⟨hv, hafter, htoken, hlog, hfair⟩
    exact ⟨hv, by simpa [hk] using hafter, htoken, hlog, hfair⟩

@[simp ↓] theorem erase_iff (hk : ∀ i, k ≠ .vault i) :
    Transacts id v w log s (t.erase k) ↔ Transacts id v w log s t := by
  constructor
  · rintro ⟨hv, hafter, htoken, hlog, hfair⟩
    exact ⟨hv, by simpa [hk] using hafter, htoken, hlog, hfair⟩
  · rintro ⟨hv, hafter, htoken, hlog, hfair⟩
    exact ⟨hv, by simpa [hk] using hafter, htoken, hlog, hfair⟩

@[simp ↓] theorem assign_iff {o : Option k.Value} (hk : ∀ i, k ≠ .vault i) :
    Transacts id v w log s (t.assign k o) ↔ Transacts id v w log s t := by
  cases o with
  | none => exact erase_iff hk
  | some x => exact put_iff hk

end Transacts

end Effects

end Heirloom
