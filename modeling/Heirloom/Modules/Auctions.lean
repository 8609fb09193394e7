import Heirloom.Modules.Host
import Heirloom.Vaults
import Mathlib.Data.List.Induction

/-!
# Auctions among beneficiaries

The owner of a vault opens an auction with a start and an end, anybody bids in between, and anybody
finalizes it afterwards. A vault has one key for its auction, which is never removed.

Results:
1. `auction_of_run`: in every run bids are made in time, at the minimum at least, and never change,
   and an auction is finalized after its end only, with the last of the highest bidders as the
   winner.
2. `auctions_documented_iff`: an auction is decided and reopened as it should be, exactly if it is
   not finalized yet and its first and its last highest bid are from one bidder.
3. `later_bidder_wins`: of two equal bids the second wins.
-/

namespace Heirloom.Modules.Auctions

open Transaction TypedStore Runs

/-! ## Storage -/

structure BeneficiaryAuctionBid where
  auctionId : Nat
  bidder : Address
  bidAmount : Int
  desiredAllocationBps : Nat
  bidTimestamp : Nat
  accepted : Bool
deriving DecidableEq

structure BeneficiaryAuction where
  auctionId : Nat
  vaultId : Nat
  startTime : Nat
  endTime : Nat
  totalAllocationBps : Nat
  minimumBid : Int
  bids : List BeneficiaryAuctionBid
  finalized : Bool
  winner : Option Address
deriving DecidableEq

inductive AuctionKey
  | beneficiaryAuction (vaultId : Nat)
  | beneficiaryAuctionCount
deriving DecidableEq

/-- The type of the value under a key. -/
@[reducible] def AuctionKey.Value : AuctionKey → Type
  | .beneficiaryAuction _ => BeneficiaryAuction
  | .beneficiaryAuctionCount => Nat

abbrev State := Store AuctionKey.Value

abbrev storageGet (k : AuctionKey) : Routine AuctionKey.Value (Option k.Value) := load k

abbrev storageSet (k : AuctionKey) (v : k.Value) : Routine AuctionKey.Value Unit := save k v

/-! ## Functions -/

def createBeneficiaryAuction (vaultId : Nat) (caller : Address)
    (startTime endTime totalAllocationBps : Nat) (minimumBid : Int) :
    Routine AuctionKey.Value Unit := do
  requireVaultOwner vaultId caller
  let found : Option BeneficiaryAuction ← storageGet (.beneficiaryAuction vaultId)
  require (found = none) .auctionAlreadyExists
  let count : Option Nat ← storageGet .beneficiaryAuctionCount
  let auctionId := count.getD 0 + 1
  Tx.ensure (auctionId ≤ u64Max) .overflow
  storageSet (.beneficiaryAuction vaultId)
    { auctionId := auctionId
      vaultId := vaultId
      startTime := startTime
      endTime := endTime
      totalAllocationBps := totalAllocationBps
      minimumBid := minimumBid
      bids := []
      finalized := false
      winner := none }
  storageSet .beneficiaryAuctionCount auctionId

def placeAuctionBid (vaultId : Nat) (bidder : Address) (bidAmount : Int)
    (desiredAllocationBps : Nat) : Routine AuctionKey.Value Unit := do
  requireAuth bidder
  let found : Option BeneficiaryAuction ← storageGet (.beneficiaryAuction vaultId)
  let auction ← fromSome found (.error .auctionNotFound)
  let now ← ask (·.timestamp)
  require (¬ (now < auction.startTime ∨ auction.endTime ≤ now)) .auctionEnded
  require (¬ bidAmount < auction.minimumBid) .invalidAmount
  storageSet (.beneficiaryAuction vaultId)
    { auction with
      bids := auction.bids ++
        [⟨auction.auctionId, bidder, bidAmount, desiredAllocationBps, now, false⟩] }

/-- The greater of two elements, or the later of two equal ones. -/
def laterMax {α : Type} (key : α → Int) : Option α → α → Option α
  | none, x => some x
  | some best, x => if key x < key best then some best else some x

/-- `Iterator::max_by_key`: of several greatest elements, the last. -/
def maxByKey {α : Type} (key : α → Int) (l : List α) : Option α := l.foldl (laterMax key) none

def finalizeBeneficiaryAuction (vaultId : Nat) : Routine AuctionKey.Value Unit := do
  let found : Option BeneficiaryAuction ← storageGet (.beneficiaryAuction vaultId)
  let auction ← fromSome found (.error .auctionNotFound)
  let now ← ask (·.timestamp)
  require (¬ now < auction.endTime) .auctionNotEnded
  if auction.bids = [] then
    storageSet (.beneficiaryAuction vaultId) { auction with finalized := true }
  else do
    let winner ← fromSome (maxByKey (·.bidAmount) auction.bids) (.error .auctionNotFound)
    storageSet (.beneficiaryAuction vaultId)
      { auction with winner := some winner.bidder, finalized := true }

/-! ## Runs -/

inductive Call
  | createBeneficiaryAuction (vaultId : Nat) (caller : Address)
      (startTime endTime totalAllocationBps : Nat) (minimumBid : Int)
  | placeAuctionBid (vaultId : Nat) (bidder : Address) (bidAmount : Int)
      (desiredAllocationBps : Nat)
  | finalizeBeneficiaryAuction (vaultId : Nat)

def exec : Call → Routine AuctionKey.Value Unit
  | .createBeneficiaryAuction i a start stop bps minimum =>
      createBeneficiaryAuction i a start stop bps minimum
  | .placeAuctionBid i a amount bps => placeAuctionBid i a amount bps
  | .finalizeBeneficiaryAuction i => finalizeBeneficiaryAuction i

/-- The storage and the time of the last call. -/
structure World where
  store : State
  clock : Nat

def World.start : World := ⟨.empty, 0⟩

def World.auction (w : World) (vaultId : Nat) : Option BeneficiaryAuction :=
  w.store.get (.beneficiaryAuction vaultId)

/-- A call that succeeds, not before the one before it; one that fails changes nothing. -/
structure Step (w : World) (k : Env × Call) (u : World) : Prop where
  clock_le : w.clock ≤ k.1.timestamp
  exec_ok : exec k.2 k.1 w.store = .ok ((), u.store)
  clock_eq : u.clock = k.1.timestamp

/-- No bid is higher. -/
def isHighest (bids : List BeneficiaryAuctionBid) (bid : BeneficiaryAuctionBid) : Bool :=
  bids.all fun other => other.bidAmount ≤ bid.bidAmount

/-- The bids of the highest amount, in the order in which they were made. -/
def highest (bids : List BeneficiaryAuctionBid) : List BeneficiaryAuctionBid :=
  bids.filter (isHighest bids)

/-- The bidder of the earliest bid among the highest. -/
def firstHighest (bids : List BeneficiaryAuctionBid) : Option Address :=
  (highest bids).head?.map (·.bidder)

/-- The bidder of the latest one. -/
def lastHighest (bids : List BeneficiaryAuctionBid) : Option Address :=
  (highest bids).getLast?.map (·.bidder)

/-! ## Calls -/

section Calls

variable {e : Env} {s t : State} {vaultId start stop bps : Nat} {a : Address} {minimum amount : Int}
  {auction : BeneficiaryAuction} {bids : List BeneficiaryAuctionBid}

theorem ok_createBeneficiaryAuction :
    createBeneficiaryAuction vaultId a start stop bps minimum e s = .ok ((), t) ↔
      (e.authorized a = true ∧ ∃ v, e.contract.vault vaultId = some v ∧ a = v.owner) ∧
        s.get (.beneficiaryAuction vaultId) = none ∧
        (s.get .beneficiaryAuctionCount).getD 0 + 1 ≤ u64Max ∧
        t = (s.put (.beneficiaryAuction vaultId)
          ⟨(s.get .beneficiaryAuctionCount).getD 0 + 1, vaultId, start, stop, bps, minimum, [],
            false, none⟩).put .beneficiaryAuctionCount
              ((s.get .beneficiaryAuctionCount).getD 0 + 1) := by
  simp only [createBeneficiaryAuction, Tx.ok_bind, ok_requireVaultOwner, ok_load, ok_require,
    Tx.ok_ensure, ok_save]
  constructor
  · rintro ⟨_, _, ⟨howner, rfl⟩, _, _, ⟨rfl, rfl⟩, _, _, ⟨hnone, rfl⟩, _, _, ⟨rfl, rfl⟩, _, _,
      ⟨hcount, rfl⟩, _, _, rfl, rfl⟩
    exact ⟨howner, hnone, hcount, rfl⟩
  · rintro ⟨howner, hnone, hcount, rfl⟩
    exact ⟨(), s, ⟨howner, rfl⟩, _, s, ⟨rfl, rfl⟩, (), s, ⟨hnone, rfl⟩, _, s, ⟨rfl, rfl⟩, (), s,
      ⟨hcount, rfl⟩, (), _, rfl, rfl⟩

theorem ok_placeAuctionBid : placeAuctionBid vaultId a amount bps e s = .ok ((), t) ↔
    e.authorized a = true ∧ ∃ auction, s.get (.beneficiaryAuction vaultId) = some auction ∧
      auction.startTime ≤ e.timestamp ∧ e.timestamp < auction.endTime ∧
      auction.minimumBid ≤ amount ∧ t = s.put (.beneficiaryAuction vaultId)
        { auction with
          bids := auction.bids ++ [⟨auction.auctionId, a, amount, bps, e.timestamp, false⟩] } := by
  simp only [placeAuctionBid, Tx.ok_bind, ok_requireAuth, ok_load, Tx.ok_fromSome, Tx.ok_ask,
    ok_require, ok_save]
  constructor
  · rintro ⟨_, _, ⟨hauth, rfl⟩, _, _, ⟨rfl, rfl⟩, auction, _, ⟨hauction, rfl⟩, _, _, ⟨rfl, rfl⟩, _,
      _, ⟨htime, rfl⟩, _, _, ⟨hamount, rfl⟩, rfl⟩
    rw [not_or, Nat.not_lt, Nat.not_le] at htime
    exact ⟨hauth, auction, hauction, htime.1, htime.2, Int.not_lt.mp hamount, rfl⟩
  · rintro ⟨hauth, auction, hauction, hstart, hend, hamount, rfl⟩
    exact ⟨(), s, ⟨hauth, rfl⟩, _, s, ⟨rfl, rfl⟩, auction, s, ⟨hauction, rfl⟩, _, s, ⟨rfl, rfl⟩,
      (), s, ⟨fun h => h.elim (Nat.not_lt.mpr hstart) (Nat.not_le.mpr hend), rfl⟩, (), s,
      ⟨Int.not_lt.mpr hamount, rfl⟩, rfl⟩

theorem mem_highest {bid : BeneficiaryAuctionBid} : bid ∈ highest bids ↔
    bid ∈ bids ∧ ∀ other ∈ bids, other.bidAmount ≤ bid.bidAmount := by
  simp [highest, isHighest]

theorem exists_highest (h : bids ≠ []) : ∃ bid, bid ∈ highest bids := by
  induction bids with
  | nil => exact absurd rfl h
  | cons bid bids ih =>
      rcases eq_or_ne bids [] with rfl | hne
      · exact ⟨bid, mem_highest.mpr ⟨List.mem_cons_self, by simp⟩⟩
      · obtain ⟨best, hbest⟩ := ih hne
        obtain ⟨hmem, hmax⟩ := mem_highest.mp hbest
        rcases le_total bid.bidAmount best.bidAmount with hle | hle
        · refine ⟨best, mem_highest.mpr ⟨List.mem_cons_of_mem _ hmem, fun other hother => ?_⟩⟩
          rcases List.mem_cons.mp hother with rfl | hother
          · exact hle
          · exact hmax other hother
        · refine ⟨bid, mem_highest.mpr ⟨List.mem_cons_self, fun other hother => ?_⟩⟩
          rcases List.mem_cons.mp hother with rfl | hother
          · exact le_rfl
          · exact (hmax other hother).trans hle

/-- A bid below the highest changes nothing. -/
theorem highest_append_of_lt {bid best : BeneficiaryAuctionBid} (hbest : best ∈ highest bids)
    (hlt : bid.bidAmount < best.bidAmount) : highest (bids ++ [bid]) = highest bids := by
  obtain ⟨hmem, hmax⟩ := mem_highest.mp hbest
  have hlast : ¬ isHighest (bids ++ [bid]) bid = true := by
    intro hall
    have hle := of_decide_eq_true (List.all_eq_true.mp hall best (List.mem_append_left _ hmem))
    exact absurd hle (Int.not_le.mpr hlt)
  unfold highest
  rw [List.filter_append, List.filter_cons_of_neg hlast, List.filter_nil, List.append_nil]
  refine List.filter_congr fun other _ => Bool.eq_iff_iff.mpr ?_
  unfold isHighest
  rw [List.all_append, Bool.and_eq_true, List.all_eq_true, List.all_eq_true]
  constructor
  · rintro ⟨hall, -⟩
    exact hall
  · intro hall
    refine ⟨hall, fun x hx => ?_⟩
    obtain rfl := List.mem_singleton.mp hx
    have hle := of_decide_eq_true (hall best hmem)
    exact decide_eq_true (Int.le_trans (Int.le_of_lt hlt) hle)

theorem getLast?_highest_append {bid best : BeneficiaryAuctionBid} (hbest : best ∈ highest bids)
    (hle : best.bidAmount ≤ bid.bidAmount) : (highest (bids ++ [bid])).getLast? = some bid := by
  obtain ⟨hmem, hmax⟩ := mem_highest.mp hbest
  have hlast : isHighest (bids ++ [bid]) bid = true := by
    refine List.all_eq_true.mpr fun other hother => decide_eq_true ?_
    rcases List.mem_append.mp hother with hother | hother
    · exact Int.le_trans (hmax other hother) hle
    · obtain rfl := List.mem_singleton.mp hother
      exact Int.le_refl _
  unfold highest
  rw [List.filter_append, List.filter_cons_of_pos hlast, List.filter_nil,
    List.getLast?_append, List.getLast?_singleton]
  rfl

/-- The bid that the code picks is the last of the highest. -/
theorem maxByKey_eq (bids : List BeneficiaryAuctionBid) :
    maxByKey (·.bidAmount) bids = (highest bids).getLast? := by
  induction bids using List.reverseRecOn with
  | nil => rfl
  | append_singleton bids bid ih =>
      have hfold : maxByKey (·.bidAmount) (bids ++ [bid]) =
          laterMax (·.bidAmount) (maxByKey (·.bidAmount) bids) bid := by
        unfold maxByKey
        rw [List.foldl_append]
        rfl
      rw [hfold, ih]
      cases hlast : (highest bids).getLast? with
      | none =>
          have hempty : bids = [] := by
            by_contra hne
            obtain ⟨bid', hbid'⟩ := exists_highest hne
            rw [List.getLast?_eq_none_iff.mp hlast] at hbid'
            cases hbid'
          subst hempty
          simp [laterMax, highest, isHighest]
      | some best =>
          have hbest := List.mem_of_getLast? hlast
          rcases lt_or_ge bid.bidAmount best.bidAmount with hlt | hle
          · rw [highest_append_of_lt hbest hlt, hlast]
            exact if_pos hlt
          · rw [getLast?_highest_append hbest hle]
            exact if_neg (Int.not_lt.mpr hle)

theorem lastHighest_of_eq_nil (h : bids = []) : lastHighest bids = none := by
  subst h
  rfl

/-- An auction without bids keeps the winner it has. -/
theorem ok_finalizeBeneficiaryAuction :
    finalizeBeneficiaryAuction vaultId e s = .ok ((), t) ↔
      ∃ auction, s.get (.beneficiaryAuction vaultId) = some auction ∧
        auction.endTime ≤ e.timestamp ∧ t = s.put (.beneficiaryAuction vaultId)
          { auction with
            winner := (lastHighest auction.bids).or auction.winner, finalized := true } := by
  simp only [finalizeBeneficiaryAuction, Tx.ok_bind, ok_load, Tx.ok_fromSome, Tx.ok_ask, ok_require]
  constructor
  · rintro ⟨_, _, ⟨rfl, rfl⟩, auction, _, ⟨hauction, rfl⟩, _, _, ⟨rfl, rfl⟩, _, _, ⟨hend, rfl⟩, hput⟩
    refine ⟨auction, hauction, Nat.not_lt.mp hend, ?_⟩
    split at hput
    · rename_i hnone
      rw [lastHighest_of_eq_nil hnone]
      exact (ok_save.mp hput).symm
    · simp only [Tx.ok_bind, Tx.ok_fromSome, ok_save, maxByKey_eq] at hput
      obtain ⟨winner, _, ⟨hwinner, rfl⟩, rfl⟩ := hput
      rw [lastHighest, hwinner]
      rfl
  · rintro ⟨auction, hauction, hend, rfl⟩
    refine ⟨_, s, ⟨rfl, rfl⟩, auction, s, ⟨hauction, rfl⟩, _, s, ⟨rfl, rfl⟩, (), s,
      ⟨Nat.not_lt.mpr hend, rfl⟩, ?_⟩
    split
    · rename_i hnone
      rw [lastHighest_of_eq_nil hnone]
      exact ok_save.mpr rfl
    · rename_i hsome
      obtain ⟨bid, hbid⟩ := exists_highest hsome
      obtain ⟨winner, hwinner⟩ := Option.ne_none_iff_exists'.mp
        (mt List.getLast?_eq_none_iff.mp (List.ne_nil_of_mem hbid))
      simp only [Tx.ok_bind, Tx.ok_fromSome, ok_save, maxByKey_eq]
      refine ⟨winner, s, ⟨hwinner, rfl⟩, ?_⟩
      rw [lastHighest, hwinner]
      rfl

end Calls

/-! ## What a call does to the auction of a vault -/

variable {w u : World} {k : Env × Call} {ks : List (Env × Call)} {vaultId : Nat}
  {auction : BeneficiaryAuction}

inductive Change (w : World) (k : Env × Call) (u : World) (vaultId : Nat) : Prop
  | same : u.auction vaultId = w.auction vaultId → Change w k u vaultId
  | created (fresh : BeneficiaryAuction) : w.auction vaultId = none →
      u.auction vaultId = some fresh → fresh.bids = [] → fresh.finalized = false →
      fresh.winner = none → Change w k u vaultId
  | placed (auction : BeneficiaryAuction) (bid : BeneficiaryAuctionBid) :
      w.auction vaultId = some auction →
      k.2 = .placeAuctionBid vaultId bid.bidder bid.bidAmount bid.desiredAllocationBps →
      k.1.timestamp = bid.bidTimestamp → auction.startTime ≤ bid.bidTimestamp →
      bid.bidTimestamp < auction.endTime → auction.minimumBid ≤ bid.bidAmount →
      u.auction vaultId = some { auction with bids := auction.bids ++ [bid] } →
      Change w k u vaultId
  | finalized (auction : BeneficiaryAuction) : w.auction vaultId = some auction →
      auction.endTime ≤ k.1.timestamp →
      u.auction vaultId = some
        { auction with
          winner := (lastHighest auction.bids).or auction.winner, finalized := true } →
      Change w k u vaultId

theorem change_of_step (h : Step w k u) (vaultId : Nat) : Change w k u vaultId := by
  obtain ⟨e, call⟩ := k
  obtain ⟨-, hexec, -⟩ := h
  cases call with
  | createBeneficiaryAuction i a start stop bps minimum =>
      obtain ⟨-, hnone, -, hput⟩ := ok_createBeneficiaryAuction.mp hexec
      have hother : u.auction vaultId = (w.store.put (.beneficiaryAuction i)
          ⟨(w.store.get .beneficiaryAuctionCount).getD 0 + 1, i, start, stop, bps, minimum, [],
            false, none⟩).get (.beneficiaryAuction vaultId) := by
        rw [World.auction, hput, Store.get_put_of_ne AuctionKey.noConfusion]
      by_cases hid : vaultId = i
      · subst hid
        rw [Store.get_put_self] at hother
        exact .created _ hnone hother rfl rfl rfl
      · rw [Store.get_put_of_ne (by simpa using hid)] at hother
        exact .same hother
  | placeAuctionBid i a amount bps =>
      obtain ⟨-, auction, hauction, hstart, hend, hamount, hput⟩ := ok_placeAuctionBid.mp hexec
      by_cases hid : vaultId = i
      · subst hid
        refine .placed auction ⟨auction.auctionId, a, amount, bps, e.timestamp, false⟩ hauction rfl
          rfl hstart hend hamount ?_
        rw [World.auction, hput, Store.get_put_self]
      · refine .same ?_
        rw [World.auction, hput, Store.get_put_of_ne (by simpa using hid)]
        rfl
  | finalizeBeneficiaryAuction i =>
      obtain ⟨auction, hauction, hend, hput⟩ := ok_finalizeBeneficiaryAuction.mp hexec
      by_cases hid : vaultId = i
      · subst hid
        refine .finalized auction hauction hend ?_
        rw [World.auction, hput, Store.get_put_self]
      · refine .same ?_
        rw [World.auction, hput, Store.get_put_of_ne (by simpa using hid)]
        rfl

/-! ## Runs -/

/-- What the history of a run and the time say about an auction. -/
structure Sound (ks : List (Env × Call)) (clock vaultId : Nat) (auction : BeneficiaryAuction) :
    Prop where
  recorded : ∀ bid ∈ auction.bids, (∃ k ∈ ks, k.1.timestamp = bid.bidTimestamp ∧
      k.2 = .placeAuctionBid vaultId bid.bidder bid.bidAmount bid.desiredAllocationBps) ∧
    auction.startTime ≤ bid.bidTimestamp ∧ bid.bidTimestamp < auction.endTime ∧
    auction.minimumBid ≤ bid.bidAmount
  ended : auction.finalized = true → auction.endTime ≤ clock
  winner : auction.winner = if auction.finalized then lastHighest auction.bids else none

theorem sound_of_step (h : ∀ auction, w.auction vaultId = some auction →
      Sound ks w.clock vaultId auction) (hstep : Step w k u)
    (hauction : u.auction vaultId = some auction) : Sound (k :: ks) u.clock vaultId auction := by
  have hclock : w.clock ≤ u.clock := hstep.clock_eq ▸ hstep.clock_le
  cases change_of_step hstep vaultId with
  | same hsame =>
      rw [hsame] at hauction
      obtain ⟨hrecorded, hended, hwinner⟩ := h auction hauction
      refine ⟨fun bid hbid => ?_, fun hfinal => (hended hfinal).trans hclock, hwinner⟩
      obtain ⟨⟨k', hk', hcall⟩, hwindow⟩ := hrecorded bid hbid
      exact ⟨⟨k', List.mem_cons_of_mem _ hk', hcall⟩, hwindow⟩
  | created fresh _ hfresh hbids hfinal hnone =>
      rw [hfresh] at hauction
      obtain rfl := Option.some.inj hauction
      refine ⟨fun bid hbid => ?_, fun h => ?_, ?_⟩
      · rw [hbids] at hbid
        cases hbid
      · rw [hfinal] at h
        cases h
      · rw [hnone, hfinal]
        rfl
  | placed before bid hbefore hcall htime hstart hend hamount hafter =>
      rw [hafter] at hauction
      obtain rfl := Option.some.inj hauction
      obtain ⟨hrecorded, hended, hwinner⟩ := h before hbefore
      have hopen : before.finalized = false := by
        refine Bool.eq_false_iff.mpr fun hfinal => ?_
        have hlate := (hended hfinal).trans hstep.clock_le
        rw [htime] at hlate
        exact Nat.not_lt.mpr hlate hend
      refine ⟨fun bid' hbid' => ?_, fun hfinal => (hended hfinal).trans hclock, ?_⟩
      · rcases List.mem_append.mp hbid' with hold | hnew
        · obtain ⟨⟨k', hk', hcall⟩, hwindow⟩ := hrecorded bid' hold
          exact ⟨⟨k', List.mem_cons_of_mem _ hk', hcall⟩, hwindow⟩
        · obtain rfl := List.mem_singleton.mp hnew
          exact ⟨⟨k, List.mem_cons_self, htime, hcall⟩, hstart, hend, hamount⟩
      · show before.winner = if before.finalized then _ else none
        rw [hwinner, hopen]
        rfl
  | finalized before hbefore hend hafter =>
      rw [hafter] at hauction
      obtain rfl := Option.some.inj hauction
      obtain ⟨hrecorded, hended, hwinner⟩ := h before hbefore
      refine ⟨fun bid hbid => ?_, fun _ => hstep.clock_eq ▸ hend, ?_⟩
      · obtain ⟨⟨k', hk', hcall⟩, hwindow⟩ := hrecorded bid hbid
        exact ⟨⟨k', List.mem_cons_of_mem _ hk', hcall⟩, hwindow⟩
      · show (lastHighest before.bids).or before.winner = lastHighest before.bids
        rw [hwinner]
        split
        · exact Option.or_self
        · exact Option.or_none

theorem sound_of_run (hrun : Run Step .start ks w) (hauction : w.auction vaultId = some auction) :
    Sound ks w.clock vaultId auction := by
  refine hrun.invariantHistory (I := fun ks w => ∀ auction, w.auction vaultId = some auction →
    Sound ks w.clock vaultId auction) (fun _ h => nomatch h) (fun ks w k u h hstep auction ha => ?_)
    auction hauction
  exact sound_of_step h hstep ha

/-- The terms of an auction stay, and bids are only added. -/
structure Extends (before after : BeneficiaryAuction) : Prop where
  startTime : after.startTime = before.startTime
  endTime : after.endTime = before.endTime
  minimumBid : after.minimumBid = before.minimumBid
  bids : before.bids <+: after.bids

theorem Extends.refl (auction : BeneficiaryAuction) : Extends auction auction :=
  ⟨rfl, rfl, rfl, List.prefix_rfl⟩

theorem Extends.trans {a b c : BeneficiaryAuction} (h : Extends a b) (h' : Extends b c) :
    Extends a c :=
  ⟨h'.startTime.trans h.startTime, h'.endTime.trans h.endTime, h'.minimumBid.trans h.minimumBid,
    h.bids.trans h'.bids⟩

theorem extends_of_step (hstep : Step w k u) (hauction : w.auction vaultId = some auction) :
    ∃ after, u.auction vaultId = some after ∧ Extends auction after := by
  cases change_of_step hstep vaultId with
  | same hsame => exact ⟨auction, hsame.trans hauction, .refl auction⟩
  | created fresh hnone =>
      rw [hnone] at hauction
      cases hauction
  | placed before bid hbefore _ _ _ _ _ hafter =>
      rw [hbefore] at hauction
      obtain rfl := Option.some.inj hauction
      exact ⟨_, hafter, rfl, rfl, rfl, List.prefix_append _ _⟩
  | finalized before hbefore _ hafter =>
      rw [hbefore] at hauction
      obtain rfl := Option.some.inj hauction
      exact ⟨_, hafter, rfl, rfl, rfl, List.prefix_rfl⟩

theorem extends_of_run (hrun : Run Step w ks u) (hauction : w.auction vaultId = some auction) :
    ∃ after, u.auction vaultId = some after ∧ Extends auction after := by
  refine hrun.invariant (I := fun u => ∃ after, u.auction vaultId = some after ∧
    Extends auction after) ⟨auction, hauction, .refl auction⟩ fun v k u h hstep => ?_
  obtain ⟨before, hbefore, hextends⟩ := h
  obtain ⟨after, hafter, hstep⟩ := extends_of_step hstep hbefore
  exact ⟨after, hafter, hextends.trans hstep⟩

/-- A call that finalizes takes place after the end and picks the last of the highest bids. -/
theorem finalize_step {e : Env} (hrun : Run Step .start ks w)
    (hauction : w.auction vaultId = some auction)
    (hstep : Step w (e, .finalizeBeneficiaryAuction vaultId) u) :
    auction.endTime ≤ e.timestamp ∧ u.auction vaultId = some
      { auction with winner := lastHighest auction.bids, finalized := true } := by
  obtain ⟨before, hbefore, hend, hput⟩ := ok_finalizeBeneficiaryAuction.mp hstep.exec_ok
  obtain rfl : before = auction := Option.some.inj (hbefore.symm.trans hauction)
  refine ⟨hend, ?_⟩
  have hwinner : (lastHighest before.bids).or before.winner = lastHighest before.bids := by
    rw [(sound_of_run hrun hauction).winner]
    split
    · exact Option.or_self
    · exact Option.or_none
  rw [World.auction, hput, Store.get_put_self, hwinner]

theorem exists_finalize_step (hauction : w.auction vaultId = some auction) (e : Env) :
    ∃ u, Step w ({ e with timestamp := max w.clock auction.endTime },
      .finalizeBeneficiaryAuction vaultId) u :=
  ⟨⟨_, _⟩, Nat.le_max_left _ _, ok_finalizeBeneficiaryAuction.mpr
    ⟨auction, hauction, Nat.le_max_right _ _, rfl⟩, rfl⟩

/-- The owner of a vault cannot open a second auction. -/
theorem create_fails {e : Env} {a : Address} {start stop bps : Nat} {minimum : Int}
    (hauction : w.auction vaultId = some auction) :
    ¬ Step w (e, .createBeneficiaryAuction vaultId a start stop bps minimum) u := by
  intro hstep
  obtain ⟨-, hnone, -⟩ := ok_createBeneficiaryAuction.mp hstep.exec_ok
  rw [World.auction, hnone] at hauction
  cases hauction

/-- In every run, with no condition: bids are made in the window of the auction, with the minimum
at least, and are never changed; an auction is finalized after its end, with the last of the
highest bidders as the winner; and to finalize it again changes nothing. -/
theorem auction_of_run (hrun : Run Step .start ks w) (hauction : w.auction vaultId = some auction) :
    Sound ks w.clock vaultId auction ∧
    (∀ ls u, Run Step w ls u → ∃ later, u.auction vaultId = some later ∧ Extends auction later) ∧
    (∀ e u, Step w (e, .finalizeBeneficiaryAuction vaultId) u → auction.endTime ≤ e.timestamp ∧
      u.auction vaultId = some
        { auction with winner := lastHighest auction.bids, finalized := true }) ∧
    (auction.finalized = true → ∀ e u, Step w (e, .finalizeBeneficiaryAuction vaultId) u →
      u.auction vaultId = some auction) := by
  have hsound := sound_of_run hrun hauction
  refine ⟨hsound, fun _ _ h => extends_of_run h hauction, fun e u h =>
    finalize_step hrun hauction h, fun hfinal e u h => ?_⟩
  have hwinner := hsound.winner
  rw [if_pos hfinal] at hwinner
  rw [(finalize_step hrun hauction h).2, ← hwinner, ← hfinal]

/-! ## What is documented -/

/-- The life of an auction as it should be, seen from a state of a run. -/
structure Documented (ks : List (Env × Call)) (w : World) (vaultId : Nat)
    (auction : BeneficiaryAuction) : Prop where
  recorded : ∀ bid ∈ auction.bids, (∃ k ∈ ks, k.1.timestamp = bid.bidTimestamp ∧
      k.2 = .placeAuctionBid vaultId bid.bidder bid.bidAmount bid.desiredAllocationBps) ∧
    auction.startTime ≤ bid.bidTimestamp ∧ bid.bidTimestamp < auction.endTime ∧
    auction.minimumBid ≤ bid.bidAmount
  kept : ∀ ls u, Run Step w ls u → ∃ later, u.auction vaultId = some later ∧
    Extends auction later
  decided : ∀ e u, Step w (e, .finalizeBeneficiaryAuction vaultId) u →
    auction.endTime ≤ e.timestamp ∧ ∃ later, u.auction vaultId = some later ∧
      later.finalized = true ∧ later.winner = firstHighest auction.bids
  final : auction.finalized = true → ∀ e u, Step w (e, .finalizeBeneficiaryAuction vaultId) u →
    u.auction vaultId = some auction
  reopened : auction.finalized = true → ∀ (e : Env) (v : Vault) start stop bps minimum,
    w.clock ≤ e.timestamp → e.contract.vault vaultId = some v → e.authorized v.owner = true →
      ∃ u, Step w (e, .createBeneficiaryAuction vaultId v.owner start stop bps minimum) u

/-- A call of anybody, at a time. -/
def callAt (timestamp : Nat) (contract : Heirloom.State) : Env :=
  ⟨timestamp, fun _ => true, contract⟩

/-- A contract with a vault of an owner. -/
def contractWith (vaultId : Nat) (owner : Address) : Heirloom.State :=
  ⟨Store.put .empty (.vault vaultId) (emptyVault owner ⟨6⟩ 100 0 ⟨8⟩ none), ⟨fun _ _ => 0, []⟩⟩

/-- The key of a vault with an auction is taken for good. -/
theorem not_documented_of_finalized (hauction : w.auction vaultId = some auction)
    (hfinal : auction.finalized = true) : ¬ Documented ks w vaultId auction := by
  intro h
  have hvault : (contractWith vaultId ⟨5⟩).vault vaultId =
      some (emptyVault ⟨5⟩ ⟨6⟩ 100 0 ⟨8⟩ none) := Store.get_put_self ..
  obtain ⟨u, hu⟩ := h.reopened hfinal (callAt w.clock (contractWith vaultId ⟨5⟩)) _ 0 0 0 0
    (Nat.le_refl _) hvault rfl
  exact create_fails hauction hu

/-- In every state of every run, an auction is decided and reopened as it should be if and only if
it is not finalized, and its first and its last highest bid are from one bidder. -/
theorem auctions_documented_iff (hrun : Run Step .start ks w)
    (hauction : w.auction vaultId = some auction) :
    Documented ks w vaultId auction ↔
      auction.finalized = false ∧ firstHighest auction.bids = lastHighest auction.bids := by
  obtain ⟨hsound, hkept, hfinalize, hfinal⟩ := auction_of_run hrun hauction
  constructor
  · intro h
    constructor
    · exact Bool.eq_false_iff.mpr fun hfinalized =>
        not_documented_of_finalized hauction hfinalized h
    · obtain ⟨u, hu⟩ := exists_finalize_step hauction (callAt 0 (contractWith vaultId ⟨5⟩))
      obtain ⟨-, later, hlater, -, hwinner⟩ := h.decided _ u hu
      rw [(hfinalize _ u hu).2] at hlater
      obtain rfl := Option.some.inj hlater
      exact hwinner.symm
  · rintro ⟨hopen, hsame⟩
    refine ⟨hsound.recorded, hkept, fun e u h => ?_, hfinal, fun hfinalized => ?_⟩
    · obtain ⟨hend, hlater⟩ := hfinalize e u h
      exact ⟨hend, _, hlater, rfl, hsame.symm⟩
    · rw [hopen] at hfinalized
      cases hfinalized

/-! ## Two runs -/

/-- Makes a call, if it succeeds. -/
def turn (w : World) (k : Env × Call) : Option ((Env × Call) × World) :=
  if w.clock ≤ k.1.timestamp then
    match exec k.2 k.1 w.store with
    | .ok (_, t) => some (k, ⟨t, k.1.timestamp⟩)
    | .error _ => none
  else none

theorem step_of_turn {p : Env × Call} (h : turn w p = some (k, u)) : Step w k u := by
  unfold turn at h
  split at h
  · rename_i hclock
    split at h
    · rename_i t hexec
      obtain ⟨rfl, rfl⟩ := Prod.mk.inj (Option.some.inj h)
      exact ⟨hclock, hexec, rfl⟩
    · cases h
  · cases h

def playAuction (calls : List (Env × Call)) : Option (List (Env × Call) × World) :=
  Runs.play turn (fun _ _ => true) .start calls

theorem run_of_playAuction {calls : List (Env × Call)} (h : playAuction calls = some (ks, w)) :
    Run Step .start ks w :=
  (@Runs.run_of_play _ _ Step _ _ _ _ _ _ _ (fun _ _ _ _ h => step_of_turn h) h).unguard

/-- Vault 1 of owner 5 is auctioned from time 100 to 200, and bidders 6 and 7 bid the same. -/
def equalBids : List (Env × Call) :=
  [(callAt 0 (contractWith 1 ⟨5⟩), .createBeneficiaryAuction 1 ⟨5⟩ 100 200 10000 10),
    (callAt 100 (contractWith 1 ⟨5⟩), .placeAuctionBid 1 ⟨6⟩ 50 5000),
    (callAt 150 (contractWith 1 ⟨5⟩), .placeAuctionBid 1 ⟨7⟩ 50 5000)]

theorem auctions_documented_higher : ∃ ks w auction, Run Step .start ks w ∧
    w.auction 1 = some auction ∧ auction.bids.length = 3 ∧ Documented ks w 1 auction := by
  have hplay : (playAuction (equalBids ++
      [(callAt 199 (contractWith 1 ⟨5⟩), .placeAuctionBid 1 ⟨6⟩ 51 5000)])).any (fun p =>
        (p.2.auction 1).any fun a => a.bids.length = 3 ∧ a.finalized = false ∧
          firstHighest a.bids = lastHighest a.bids) := by decide +kernel
  obtain ⟨⟨ks, w⟩, hw, hchecks⟩ := (Option.any_eq_true _ _).mp hplay
  obtain ⟨auction, hauction, hcheck⟩ := (Option.any_eq_true _ _).mp hchecks
  obtain ⟨hlength, hcond⟩ := of_decide_eq_true hcheck
  have hrun := run_of_playAuction hw
  exact ⟨ks, w, auction, hrun, hauction, hlength,
    (auctions_documented_iff hrun hauction).mpr hcond⟩

/-- Of two equal bids the second wins, and the owner cannot open another auction. -/
theorem later_bidder_wins : ∃ ks w auction, Run Step .start ks w ∧
    w.auction 1 = some auction ∧ auction.finalized = true ∧
    firstHighest auction.bids = some ⟨6⟩ ∧ auction.winner = some ⟨7⟩ ∧
    (∀ e a start stop bps minimum u,
      ¬ Step w (e, .createBeneficiaryAuction 1 a start stop bps minimum) u) ∧
    ¬ Documented ks w 1 auction := by
  have hplay : (playAuction (equalBids ++
      [(callAt 200 (contractWith 1 ⟨5⟩), .finalizeBeneficiaryAuction 1)])).any (fun p =>
        (p.2.auction 1).any fun a => a.finalized = true ∧ firstHighest a.bids = some ⟨6⟩ ∧
          a.winner = some ⟨7⟩) := by decide +kernel
  obtain ⟨⟨ks, w⟩, hw, hchecks⟩ := (Option.any_eq_true _ _).mp hplay
  obtain ⟨auction, hauction, hcheck⟩ := (Option.any_eq_true _ _).mp hchecks
  obtain ⟨hfinal, hfirst, hwinner⟩ := of_decide_eq_true hcheck
  exact ⟨ks, w, auction, run_of_playAuction hw, hauction, hfinal, hfirst, hwinner,
    fun _ _ _ _ _ _ _ => create_fails hauction, not_documented_of_finalized hauction hfinal⟩

end Heirloom.Modules.Auctions
