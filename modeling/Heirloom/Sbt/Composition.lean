import Heirloom.Lib.Search
import Heirloom.Sbt.Contract

/-!
# Composition

A token may be linked to an NFT of its owner elsewhere, and may name other tokens as its
components. The components of a token are replaced as a whole, after a search that
looks for a way back to the token and gives up after 32 tokens; a resolution collects
what is below a token and stops the call at a token it meets twice, and below 32 levels.
-/

namespace Heirloom.Sbt

open Transaction TypedStore Digraph

def maxCompositionDepth : Nat := 32

/-- The components stored under a token, none if there is no entry. -/
def componentsOf (s : State) (id : Nat) : List Nat :=
  match s.get (.compositionComponents id) with
  | some components => components.componentIds
  | none => []

/-! ## Links to an NFT -/

/-- Links a token to an NFT that its owner owns; the NFT stays where it is. -/
def composeSbtWithNft (id : Nat) (nftAddress : Address) (nftId : Nat) : Contract Unit := do
  let owner ← requireOwner id
  let present ← storageGet (.composition id)
  ensure (present = none) (.error .alreadyComposed)
  let nftOwner ← ask fun e => e.ownerOf nftAddress nftId
  let nftOwner ← fromSome nftOwner .trap
  ensure (nftOwner = owner) (.error .nftOwnershipMismatch)
  let now ← ask (·.timestamp)
  storageSet (.composition id) ⟨nftAddress, nftId, now⟩

def decomposeSbt (id : Nat) : Contract Unit := do
  let _ ← requireOwner id
  let present ← storageGet (.composition id)
  ensure (present ≠ none) (.error .notComposed)
  remove (.composition id)

def setSharedMetadata (id : Nat) (metadata : Bytes) : Contract Unit := do
  let _ ← requireOwner id
  storageSet (.sharedMetadata id) metadata

/-! ## Components -/

/-- Whether a root reaches the target, or more than 32 tokens. -/
def compositionReachesAny (roots : List Nat) (target : Nat) : Contract Bool :=
  Tx.read fun s => search (componentsOf s) maxCompositionDepth roots target

def setCompositionComponents (id : Nat) (componentIds : List Nat) : Contract Unit := do
  let _ ← requireOwner id
  let reaches ← compositionReachesAny componentIds id
  ensure (componentIds ≠ [] ∧ reaches = false) (.error .invalidCompositionGraph)
  Tx.forEach componentIds fun componentId => do
    let _ ← loadOwner componentId
  storageSet (.compositionComponents id) ⟨componentIds⟩

/-- What a resolution has met and what it returns. -/
structure Resolution where
  visited : List Nat
  resolved : List Nat

/-- `resolve_composition_inner`, with `left` more levels below which it may go. -/
def resolveCompositionInner : Nat → Nat → Resolution → Contract Resolution
  | 0, _, _ => abort (.error .invalidCompositionGraph)
  | left + 1, current, r => do
      ensure (current ∉ r.visited) (.error .invalidCompositionGraph)
      let components : Option CompositionComponents ← storageGet (.compositionComponents current)
      let componentIds := (components.map (·.componentIds)).getD []
      Tx.foldEach componentIds { r with visited := r.visited ++ [current] } fun r component => do
        let _ ← loadOwner component
        resolveCompositionInner left component { r with resolved := r.resolved ++ [component] }

/-- The tokens below a token, each after the ones it is a component of. -/
def resolveComposition (id : Nat) : Contract (List Nat) := do
  let r ← resolveCompositionInner maxCompositionDepth id ⟨[], []⟩
  pure r.resolved

end Heirloom.Sbt
