import Heirloom.Lib.ReverseMap
import Heirloom.Modules.Host

/-!
# Credential anchors

Credentials are anchored to pairs of an external identifier and a system. Each
credential lists its anchors, and a reverse lookup leads from a pair to its credential.
The reverse lookup is kept under the concatenation of the two parts, which two pairs
can share, and an anchor is removed from the credential that the caller names.

Results:
1. `anchors_inverse`: on any set `D` of pairs, lists and lookups agree in every run
   whose creations and removals use keys that no other pair of `D` has, and whose
   removals of pairs of `D` name the credential that lists them; and from a state where
   they agree, exactly such a step keeps the agreement and leaves the other pairs of
   `D` alone.
2. `anchors_shared_key`: two pairs with one concatenation, of which one is anchored and
   the other looked up and removed.
-/

namespace Heirloom.Modules.Anchoring

open Transaction TypedStore Runs ReverseMap

/-! ## Constants and records -/

def maxSystemLen : Nat := 64
def maxExternalIdLen : Nat := 256

/-- A record that links a credential to one entry of an external system. -/
structure CredentialAnchor where
  credentialId : Nat
  externalId : Bytes
  system : Bytes
  createdAt : Nat
deriving DecidableEq

inductive CredentialState
  | draft | active | suspended | revoked | expired | archived
deriving DecidableEq

/-! ## Storage -/

inductive AnchorKey
  | credentialAnchors (credentialId : Nat)
  | reverseAnchor (key : Bytes)
  | anchorCount
  -- `CredentialLifecycleKey`
  | credentialState (credentialId : Nat)
  | stateTransitionTime (credentialId : Nat)
deriving DecidableEq

/-- The type of the value under a key. -/
@[reducible] def AnchorKey.Value : AnchorKey → Type
  | .credentialAnchors _ => List CredentialAnchor
  | .reverseAnchor _ => Nat
  | .anchorCount => Nat
  | .credentialState _ => CredentialState
  | .stateTransitionTime _ => Nat

abbrev State := Store AnchorKey.Value

abbrev storageGet (k : AnchorKey) : Routine AnchorKey.Value (Option k.Value) := load k

abbrev storageSet (k : AnchorKey) (v : k.Value) : Routine AnchorKey.Value Unit := save k v

/-! ## The life of a credential -/

def isValidTransition : CredentialState → CredentialState → Bool
  | .draft, .active | .draft, .suspended | .draft, .revoked => true
  | .active, .suspended | .active, .revoked | .active, .expired | .active, .archived => true
  | .suspended, .active | .suspended, .revoked | .suspended, .expired
  | .suspended, .archived => true
  | .expired, .archived | .expired, .revoked => true
  | _, _ => false

def isTerminalState (state : CredentialState) : Bool :=
  state = .revoked ∨ state = .archived

def isActiveState (state : CredentialState) : Bool := state = .active

def getCredentialState (credentialId : Nat) : Routine AnchorKey.Value CredentialState := do
  let state : Option CredentialState ← storageGet (.credentialState credentialId)
  pure (state.getD .draft)

/-- Makes a credential a draft; does nothing if it has a state. -/
def initCredentialState (credentialId : Nat) : Routine AnchorKey.Value Unit := do
  let state : Option CredentialState ← storageGet (.credentialState credentialId)
  if state.isSome then pure ()
  else do
    storageSet (.credentialState credentialId) .draft
    let now ← ask (·.timestamp)
    storageSet (.stateTransitionTime credentialId) now

/-- Moves a credential to a new state and returns whether that is allowed. -/
def transitionCredentialState (credentialId : Nat) (newState : CredentialState) :
    Routine AnchorKey.Value Bool := do
  let current ← getCredentialState credentialId
  let valid := !isTerminalState current && isValidTransition current newState
  if valid = false then pure false
  else do
    storageSet (.credentialState credentialId) newState
    let now ← ask (·.timestamp)
    storageSet (.stateTransitionTime credentialId) now
    pure true

/-! ## Anchors -/

/-- The key of the reverse lookup: `external_id ++ system`. -/
def compositeKey (externalId system : Bytes) : Bytes := externalId ++ system

/-- Anchors a credential; `false` if the arguments are out of bounds or the key of the
pair is taken. -/
def createCredentialAnchor (credentialId : Nat) (externalId system : Bytes) :
    Routine AnchorKey.Value Bool := do
  if externalId = [] ∨ system = [] then pure false
  else if maxSystemLen < system.length ∨ maxExternalIdLen < externalId.length then pure false
  else do
    let revKey := compositeKey externalId system
    let taken : Option Nat ← storageGet (.reverseAnchor revKey)
    if taken.isSome then pure false
    else do
      let now ← ask (·.timestamp)
      storageSet (.reverseAnchor revKey) credentialId
      let anchors : Option (List CredentialAnchor) ← storageGet (.credentialAnchors credentialId)
      storageSet (.credentialAnchors credentialId)
        (anchors.getD [] ++ [⟨credentialId, externalId, system, now⟩])
      let count : Option Nat ← storageGet .anchorCount
      storageSet .anchorCount (saturatingAdd64 (count.getD 0) 1)
      pure true

/-- Removes the reverse lookup of the pair, and the pair from the list of the given
credential; `false` if there is no such lookup. -/
def removeCredentialAnchor (credentialId : Nat) (externalId system : Bytes) :
    Routine AnchorKey.Value Bool := do
  let revKey := compositeKey externalId system
  let taken : Option Nat ← storageGet (.reverseAnchor revKey)
  if taken.isNone then pure false
  else do
    remove (.reverseAnchor revKey)
    let anchors : Option (List CredentialAnchor) ← storageGet (.credentialAnchors credentialId)
    Tx.ifSome anchors fun anchors =>
      storageSet (.credentialAnchors credentialId)
        (anchors.filter fun a => a.externalId ≠ externalId ∨ a.system ≠ system)
    pure true

/-- The credential that a pair is anchored to, if that credential is active. -/
def verifyExternalAnchor (externalId system : Bytes) :
    Routine AnchorKey.Value (Option Nat) := do
  let found : Option Nat ← storageGet (.reverseAnchor (compositeKey externalId system))
  match found with
  | none => pure none
  | some credentialId => do
      let state ← getCredentialState credentialId
      pure (if isActiveState state then some credentialId else none)

def getCredentialAnchors (credentialId : Nat) :
    Routine AnchorKey.Value (List CredentialAnchor) := do
  let anchors : Option (List CredentialAnchor) ← storageGet (.credentialAnchors credentialId)
  pure (anchors.getD [])

/-! ## The entry points of the contract -/

inductive Call
  | createCredentialAnchor (caller : Address) (credentialId : Nat) (externalId system : Bytes)
  | removeCredentialAnchor (caller : Address) (credentialId : Nat) (externalId system : Bytes)
  | initCredential (credentialId : Nat)
  /-- `activate_credential`, `suspend_credential`, `revoke_credential`,
  `archive_credential` and `expire_credential`, by the state they lead to. -/
  | transitionCredential (caller : Address) (credentialId : Nat) (newState : CredentialState)

def exec : Call → Routine AnchorKey.Value Unit
  | .createCredentialAnchor caller credentialId externalId system => do
      requireAuth caller
      require (externalId ≠ [] ∧ externalId.length ≤ maxExternalIdLen) .invalidExternalId
      require (system ≠ [] ∧ system.length ≤ maxSystemLen) .invalidAnchorSystem
      let created ← createCredentialAnchor credentialId externalId system
      require (created = true) .anchorAlreadyExists
  | .removeCredentialAnchor caller credentialId externalId system => do
      requireAuth caller
      let removed ← removeCredentialAnchor credentialId externalId system
      require (removed = true) .anchorNotFound
  | .initCredential credentialId => do
      let paused ← ask fun e => e.contract.get .paused
      require (paused.getD false = false) .paused
      initCredentialState credentialId
  | .transitionCredential caller credentialId newState => do
      requireAdmin caller
      let moved ← transitionCredentialState credentialId newState
      require (moved = true) .invalidStateTransition

/-- A call that succeeds; one that fails changes nothing. -/
def Step (s : State) (k : Env × Call) (t : State) : Prop := exec k.2 k.1 s = .ok ((), t)

/-! ## Lists and lookups -/

/-- An external identifier and a system. -/
abbrev Pair := Bytes × Bytes

def pairKey (p : Pair) : Bytes := compositeKey p.1 p.2

def CredentialAnchor.pair (a : CredentialAnchor) : Pair := (a.externalId, a.system)

/-- What `get_credential_anchors` returns. -/
def anchorsOf (s : State) (c : Nat) : List CredentialAnchor :=
  (s.get (.credentialAnchors c)).getD []

def Lists (s : State) (c : Nat) (p : Pair) : Prop := ∃ a ∈ anchorsOf s c, a.pair = p

/-- The reverse lookup, by its key. -/
def lookup (s : State) (key : Bytes) : Option Nat := s.get (.reverseAnchor key)

def stateOf (s : State) (c : Nat) : CredentialState :=
  (s.get (.credentialState c)).getD .draft

/-- On the pairs of `D`, a credential lists a pair exactly when the lookup of the pair
names the credential. -/
def Agree (D : Pair → Prop) (s : State) : Prop := InverseOn D pairKey (Lists s) (lookup s)

/-- The pair that a call creates or removes an anchor of. -/
def Call.pair? : Call → Option Pair
  | .createCredentialAnchor _ _ externalId system => some (externalId, system)
  | .removeCredentialAnchor _ _ externalId system => some (externalId, system)
  | .initCredential _ | .transitionCredential _ _ _ => none

/-- A call changes neither the lookup nor the records of the other pairs of `D`. -/
def LeavesOthers (D : Pair → Prop) (c : Call) (s t : State) : Prop :=
  ∀ q, D q → c.pair? ≠ some q → lookup t (pairKey q) = lookup s (pairKey q) ∧
    ∀ i, (anchorsOf t i).filter (·.pair = q) = (anchorsOf s i).filter (·.pair = q)

/-- The pair of a call has a key that no other pair of `D` has, and if the pair is in `D`
and its anchor is to be removed, the credential that is named lists it. -/
def Safe (D : Pair → Prop) (s : State) (k : Env × Call) : Prop :=
  match k.2 with
  | .createCredentialAnchor _ _ externalId system => Alone D pairKey (externalId, system)
  | .removeCredentialAnchor _ c externalId system =>
      Alone D pairKey (externalId, system) ∧
        (D (externalId, system) → Lists s c (externalId, system))
  | .initCredential _ | .transitionCredential _ _ _ => True

section Reads

variable {s : State} {k : AnchorKey} {v : k.Value} {key : Bytes} {c : Nat}
  {anchors : List CredentialAnchor}

@[simp] theorem lookup_put_self :
    lookup (s.put (.reverseAnchor key) c) = Function.update (lookup s) key (some c) := by
  funext key'
  by_cases h : key' = key
  · subst h
    simp [lookup]
  · simp [lookup, h]

@[simp] theorem lookup_erase_self :
    lookup (s.erase (.reverseAnchor key)) = Function.update (lookup s) key none := by
  funext key'
  by_cases h : key' = key
  · subst h
    simp [lookup]
  · simp [lookup, h]

@[simp] theorem lookup_put (h : ∀ key, k ≠ .reverseAnchor key) : lookup (s.put k v) = lookup s :=
  funext fun key => Store.get_put_of_ne (h key).symm

@[simp] theorem anchorsOf_put_self :
    anchorsOf (s.put (.credentialAnchors c) anchors) =
      Function.update (anchorsOf s) c anchors := by
  funext c'
  by_cases h : c' = c
  · subst h
    simp [anchorsOf]
  · simp [anchorsOf, h]

@[simp] theorem anchorsOf_put (h : ∀ c, k ≠ .credentialAnchors c) :
    anchorsOf (s.put k v) = anchorsOf s :=
  funext fun c => by rw [anchorsOf, anchorsOf, Store.get_put_of_ne (h c).symm]

@[simp] theorem anchorsOf_erase (h : ∀ c, k ≠ .credentialAnchors c) :
    anchorsOf (s.erase k) = anchorsOf s :=
  funext fun c => by rw [anchorsOf, anchorsOf, Store.get_erase_of_ne (h c).symm]

end Reads

section Steps

variable {D : Pair → Prop} {s t : State} {e : Env} {caller : Address} {c : Nat}
  {externalId system : Bytes}

/-- What anchoring a pair does to the lookups and to the lists. -/
structure Created (s : State) (c : Nat) (p : Pair) (now : Nat) (t : State) : Prop where
  free : lookup s (pairKey p) = none
  lookup_eq : lookup t = Function.update (lookup s) (pairKey p) (some c)
  anchors_eq : anchorsOf t = Function.update (anchorsOf s) c (anchorsOf s c ++ [⟨c, p.1, p.2, now⟩])

/-- What removing the anchor of a pair does to them. -/
structure Removed (s : State) (c : Nat) (p : Pair) (t : State) : Prop where
  used : lookup s (pairKey p) ≠ none
  lookup_eq : lookup t = Function.update (lookup s) (pairKey p) none
  anchors_eq : anchorsOf t = Function.update (anchorsOf s) c ((anchorsOf s c).filter (·.pair ≠ p))

theorem create_ok (h : Step s (e, .createCredentialAnchor caller c externalId system) t) :
    Created s c (externalId, system) e.timestamp t := by
  have hwp : wp (createCredentialAnchor c externalId system) (fun created t => created = true →
      Created s c (externalId, system) e.timestamp t) e s := by
    simp only [createCredentialAnchor, Tx.wp_bind, Tx.wp_ite, Tx.wp_pure, Tx.wp_ask, wp_load,
      wp_save, Bool.false_eq_true, false_implies, implies_true, true_and, forall_const]
    intro _ _ hfree
    refine ⟨by simpa [lookup, pairKey] using hfree, ?_, ?_⟩
    · simp [pairKey]
    · simp [anchorsOf]
  obtain ⟨_, _, ⟨-, rfl⟩, _, _, ⟨-, rfl⟩, _, _, ⟨-, rfl⟩, created, u, hcreate, hdone⟩ :=
    show ∃ _ _, _ ∧ ∃ _ _, _ ∧ ∃ _ _, _ ∧ ∃ _ _, _ ∧ _ by
      simpa only [Step, exec, Tx.ok_bind, ok_requireAuth, ok_require] using h
  obtain ⟨hcreated, rfl⟩ := hdone
  exact hwp created u hcreate hcreated

theorem remove_ok (h : Step s (e, .removeCredentialAnchor caller c externalId system) t) :
    Removed s c (externalId, system) t := by
  have hwp : wp (removeCredentialAnchor c externalId system) (fun removed t => removed = true →
      Removed s c (externalId, system) t) e s := by
    simp only [removeCredentialAnchor, Tx.wp_bind, Tx.wp_ite, Tx.wp_pure, Tx.wp_ifSome, wp_load,
      wp_save, wp_remove, Bool.false_eq_true, false_implies, implies_true, true_and, forall_const]
    intro hused
    have hlookup : lookup s (pairKey (externalId, system)) ≠ none := by
      simpa [lookup, pairKey] using hused
    rw [Store.get_erase_of_ne (by simp)]
    constructor
    · intro anchors hanchors
      refine ⟨hlookup, by simp [pairKey], ?_⟩
      simp [anchorsOf, hanchors, CredentialAnchor.pair, Prod.ext_iff, imp_iff_not_or]
    · intro hnone
      refine ⟨hlookup, by simp [pairKey], ?_⟩
      have hlist : anchorsOf s c = [] := by simp [anchorsOf, hnone]
      simp [hlist]
  obtain ⟨_, _, ⟨-, rfl⟩, removed, u, hremove, hdone⟩ :=
    show ∃ _ _, _ ∧ ∃ _ _, _ ∧ _ by
      simpa only [Step, exec, Tx.ok_bind, ok_requireAuth, ok_require] using h
  obtain ⟨hremoved, rfl⟩ := hdone
  exact hwp removed u hremove hremoved

/-- The life of a credential touches no anchor. -/
theorem lifecycle_ok {call : Call} (hpair : call.pair? = none) (h : Step s (e, call) t) :
    lookup t = lookup s ∧ anchorsOf t = anchorsOf s := by
  have hwp : wp (exec call) (fun _ t => lookup t = lookup s ∧ anchorsOf t = anchorsOf s) e s := by
    cases call with
    | createCredentialAnchor _ _ _ _ => cases hpair
    | removeCredentialAnchor _ _ _ _ => cases hpair
    | initCredential c => simp [exec, initCredentialState]
    | transitionCredential caller c newState =>
        simp [exec, requireAdmin, transitionCredentialState, getCredentialState]
  exact hwp () t h

theorem Created.lists_iff {p q : Pair} {now c' : Nat} (h : Created s c p now t) :
    Lists t c' q ↔ c' = c ∧ q = p ∨ Lists s c' q := by
  unfold Lists
  rw [h.anchors_eq]
  by_cases hc : c' = c
  · subst hc
    simp [CredentialAnchor.pair, or_and_right, exists_or, or_comm, eq_comm]
  · simp [hc]

theorem Removed.lists_iff {p q : Pair} {c' : Nat} (h : Removed s c p t) :
    Lists t c' q ↔ Lists s c' q ∧ ¬ (c' = c ∧ q = p) := by
  unfold Lists
  rw [h.anchors_eq]
  by_cases hc : c' = c
  · subst hc
    simp only [Function.update_self, List.mem_filter, decide_eq_true_eq, true_and]
    constructor
    · rintro ⟨a, ⟨ha, hne⟩, rfl⟩
      exact ⟨⟨a, ha, rfl⟩, hne⟩
    · rintro ⟨⟨a, ha, rfl⟩, hne⟩
      exact ⟨a, ⟨ha, hne⟩, rfl⟩
  · simp [hc]

theorem Created.agree_iff {p : Pair} {now : Nat} (hs : Agree D s) (h : Created s c p now t) :
    Agree D t ↔ Alone D pairKey p := by
  have hlists : Lists t = fun c' q => c' = c ∧ q = p ∨ Lists s c' q := by
    funext c' q
    exact propext h.lists_iff
  unfold Agree
  rw [hlists, h.lookup_eq]
  exact hs.add_iff h.free

theorem Removed.agree_iff {p : Pair} (hs : Agree D s) (h : Removed s c p t) :
    Agree D t ↔ Alone D pairKey p ∧ (D p → Lists s c p) := by
  have hlists : Lists t = fun c' q => Lists s c' q ∧ ¬ (c' = c ∧ q = p) := by
    funext c' q
    exact propext h.lists_iff
  unfold Agree
  rw [hlists, h.lookup_eq, hs.drop_iff h.used]
  constructor
  · intro hcond
    exact ⟨fun q hq hkey => (hcond q hq hkey).1, fun hp => (hs p hp c).mpr (hcond p hp rfl).2⟩
  · rintro ⟨halone, hlisted⟩ q hq hkey
    obtain rfl := halone q hq hkey
    exact ⟨rfl, (hs q hq c).mp (hlisted hq)⟩

/-- Where no other pair of `D` has the key of `p`, the other pairs are left alone. -/
theorem Created.leavesOthers {p : Pair} {now : Nat} {call : Call} (h : Created s c p now t)
    (hpair : call.pair? = some p) (halone : Alone D pairKey p) : LeavesOthers D call s t := by
  intro q hq hne
  have hqp : q ≠ p := fun heq => hne (by rw [hpair, heq])
  have hkey : pairKey q ≠ pairKey p := fun heq => hqp (halone q hq heq)
  refine ⟨by rw [h.lookup_eq, Function.update_of_ne hkey], fun i => ?_⟩
  rw [h.anchors_eq]
  by_cases hi : i = c
  · subst hi
    have hnew : ¬ ((p.1, p.2) : Pair) = q := fun heq => hqp heq.symm
    simp [CredentialAnchor.pair, hnew]
  · rw [Function.update_of_ne hi]

theorem Removed.leavesOthers {p : Pair} {call : Call} (h : Removed s c p t)
    (hpair : call.pair? = some p) (halone : Alone D pairKey p) : LeavesOthers D call s t := by
  intro q hq hne
  have hqp : q ≠ p := fun heq => hne (by rw [hpair, heq])
  have hkey : pairKey q ≠ pairKey p := fun heq => hqp (halone q hq heq)
  refine ⟨by rw [h.lookup_eq, Function.update_of_ne hkey], fun i => ?_⟩
  rw [h.anchors_eq]
  by_cases hi : i = c
  · subst hi
    rw [Function.update_self, List.filter_filter]
    refine List.filter_congr fun a _ => ?_
    by_cases ha : a.pair = q
    · simp [ha, hqp]
    · simp [ha]
  · rw [Function.update_of_ne hi]

/-- What keeps lists and lookups inverse to each other, and other pairs out of it. -/
theorem step_iff {k : Env × Call} (hs : Agree D s) (h : Step s k t) :
    Agree D t ∧ LeavesOthers D k.2 s t ↔ Safe D s k := by
  obtain ⟨e, call⟩ := k
  cases call with
  | createCredentialAnchor caller c externalId system =>
      have hstep := create_ok h
      rw [hstep.agree_iff hs]
      exact ⟨And.left, fun halone => ⟨halone, hstep.leavesOthers rfl halone⟩⟩
  | removeCredentialAnchor caller c externalId system =>
      have hstep := remove_ok h
      rw [hstep.agree_iff hs]
      exact ⟨And.left, fun hsafe => ⟨hsafe, hstep.leavesOthers rfl hsafe.1⟩⟩
  | initCredential c =>
      obtain ⟨hlookup, hanchors⟩ := lifecycle_ok rfl h
      refine ⟨fun _ => trivial, fun _ => ⟨?_, fun q _ _ => by simp [hlookup, hanchors]⟩⟩
      simpa [Agree, InverseOn, Lists, hlookup, hanchors] using hs
  | transitionCredential caller c newState =>
      obtain ⟨hlookup, hanchors⟩ := lifecycle_ok rfl h
      refine ⟨fun _ => trivial, fun _ => ⟨?_, fun q _ _ => by simp [hlookup, hanchors]⟩⟩
      simpa [Agree, InverseOn, Lists, hlookup, hanchors] using hs

theorem agree_empty : Agree D .empty := by
  intro p _ c
  simp [Lists, anchorsOf, lookup]

/-- The lookup of the contract answers for active credentials only. -/
theorem verifyExternalAnchor_iff {p : Pair} :
    verifyExternalAnchor p.1 p.2 e s = .ok (some c, s) ↔
      lookup s (pairKey p) = some c ∧ isActiveState (stateOf s c) = true := by
  rw [verifyExternalAnchor, Tx.bind_of_ok (ok_load.mpr ⟨rfl, rfl⟩)]
  show _ ↔ s.get (.reverseAnchor (compositeKey p.1 p.2)) = some c ∧ _
  cases hfound : s.get (.reverseAnchor (compositeKey p.1 p.2)) with
  | none => simp
  | some c' =>
      have hstate : getCredentialState c' e s = .ok (stateOf s c', s) := rfl
      show (getCredentialState c' >>= _) e s = _ ↔ _
      rw [Tx.bind_of_ok hstate]
      by_cases hactive : isActiveState (stateOf s c') = true
      · simp only [hactive, if_true, Tx.ok_pure, Option.some.injEq, and_true]
        constructor
        · rintro rfl
          exact ⟨rfl, hactive⟩
        · exact And.left
      · simp only [hactive, Bool.false_eq_true, if_false, Tx.ok_pure, reduceCtorEq, false_and,
          Option.some.injEq, false_iff]
        rintro ⟨rfl, h⟩
        exact hactive h

end Steps

/-! ## Runs -/

/-- On any set of pairs, lists and lookups are inverse to each other in every run that is
safe for the set; and no step but a safe one keeps them so and leaves the other pairs of
the set alone. -/
theorem anchors_inverse (D : Pair → Prop) :
    (∀ ks s, Run (Guarded Step (Safe D)) .empty ks s →
      (∀ p, D p → ∀ c, Lists s c p ↔ lookup s (pairKey p) = some c) ∧
      ∀ p, D p → ∀ c e, verifyExternalAnchor p.1 p.2 e s = .ok (some c, s) ↔
        Lists s c p ∧ isActiveState (stateOf s c) = true) ∧
    ∀ s k t, (∀ p, D p → ∀ c, Lists s c p ↔ lookup s (pairKey p) = some c) → Step s k t →
      ((∀ p, D p → ∀ c, Lists t c p ↔ lookup t (pairKey p) = some c) ∧
        LeavesOthers D k.2 s t ↔ Safe D s k) := by
  refine ⟨fun ks s hrun => ?_, fun s k t hs hstep => step_iff hs hstep⟩
  have hagree : Agree D s :=
    hrun.invariant agree_empty fun _ _ _ ht hk => ((step_iff ht hk.1).mpr hk.2).1
  refine ⟨hagree, fun p hp c e => ?_⟩
  rw [verifyExternalAnchor_iff, hagree p hp c]

/-- A call that everyone has signed, at time 5. -/
def signed : Env := ⟨5, fun _ => true, ⟨.empty, ⟨fun _ _ => 0, []⟩⟩⟩

/-- Credential 1 after it has been anchored to `("a", "bc")`. -/
def anchoredState : State :=
  ((Store.put .empty (.reverseAnchor [97, 98, 99]) 1).put (.credentialAnchors 1)
    [⟨1, [97], [98, 99], 5⟩]).put .anchorCount 1

/-- The same after the anchor of `("ab", "c")` has been removed from credential 2. -/
def strippedState : State := anchoredState.erase (.reverseAnchor [97, 98, 99])

/-- Credential 3 after it has been anchored to `("a", "bc")` as well. -/
def doubledState : State :=
  ((strippedState.put (.reverseAnchor [97, 98, 99]) 3).put (.credentialAnchors 3)
    [⟨3, [97], [98, 99], 5⟩]).put .anchorCount 2

theorem step_anchored :
    Step .empty (signed, .createCredentialAnchor ⟨1⟩ 1 [97] [98, 99]) anchoredState := rfl

/-- External identifiers of one byte. -/
def OneByte (p : Pair) : Prop := p.1.length = 1

/-- Where external identifiers have one length, an anchor can be looked up, and only by
its own pair. -/
theorem anchors_inverse_run :
    Run (Guarded Step (Safe OneByte)) .empty
      [(signed, .createCredentialAnchor ⟨1⟩ 1 [97] [98, 99])] anchoredState ∧
    ∀ p, OneByte p → ∀ c, Lists anchoredState c p ↔ lookup anchoredState (pairKey p) = some c := by
  have hsafe : Alone OneByte pairKey ([97], [98, 99]) := by
    rintro ⟨externalId, system⟩ hq hkey
    obtain ⟨h, h'⟩ := List.append_inj hkey hq
    exact Prod.ext h h'
  have hrun : Run (Guarded Step (Safe OneByte)) .empty
      [(signed, .createCredentialAnchor ⟨1⟩ 1 [97] [98, 99])] anchoredState :=
    .next .start ⟨step_anchored, hsafe⟩
  exact ⟨hrun, ((anchors_inverse OneByte).1 _ _ hrun).1⟩

/-- The pairs `("a", "bc")` and `("ab", "c")` share a key. Only the first is anchored,
but the second is found, cannot be anchored, and can be removed, from a credential that
has nothing to do with either; then the first is listed and not found, and a second
credential can be anchored to it. -/
theorem anchors_shared_key :
    Run Step .empty [(signed, .createCredentialAnchor ⟨1⟩ 1 [97] [98, 99])] anchoredState ∧
    lookup anchoredState (pairKey ([97, 98], [99])) = some 1 ∧
    (∀ c, ¬ Lists anchoredState c ([97, 98], [99])) ∧
    exec (.createCredentialAnchor ⟨1⟩ 4 [97, 98] [99]) signed anchoredState =
      .error (.error .anchorAlreadyExists) ∧
    Run Step .empty
      [(signed, .createCredentialAnchor ⟨3⟩ 3 [97] [98, 99]),
        (signed, .removeCredentialAnchor ⟨2⟩ 2 [97, 98] [99]),
        (signed, .createCredentialAnchor ⟨1⟩ 1 [97] [98, 99])] doubledState ∧
    lookup strippedState (pairKey ([97], [98, 99])) = none ∧
    Lists strippedState 1 ([97], [98, 99]) ∧
    Lists doubledState 1 ([97], [98, 99]) ∧ Lists doubledState 3 ([97], [98, 99]) := by
  have hstrip : Step anchoredState (signed, .removeCredentialAnchor ⟨2⟩ 2 [97, 98] [99])
      strippedState := rfl
  have hdouble : Step strippedState (signed, .createCredentialAnchor ⟨3⟩ 3 [97] [98, 99])
      doubledState := rfl
  have hunlisted : ∀ c, ¬ Lists anchoredState c ([97, 98], [99]) := by
    rintro c ⟨a, ha, hpair⟩
    by_cases hc : c = 1
    · subst hc
      obtain rfl : a = ⟨1, [97], [98, 99], 5⟩ := List.mem_singleton.mp ha
      cases hpair
    · simp [anchorsOf, anchoredState, hc] at ha
  refine ⟨.next .start step_anchored, rfl, hunlisted, rfl, ?_, rfl, ?_, ?_, ?_⟩
  · exact .next (.next (.next .start step_anchored) hstrip) hdouble
  · exact ⟨_, List.mem_singleton.mpr rfl, rfl⟩
  · exact ⟨_, List.mem_singleton.mpr rfl, rfl⟩
  · exact ⟨_, List.mem_singleton.mpr rfl, rfl⟩

end Heirloom.Modules.Anchoring
