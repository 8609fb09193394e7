import Heirloom.Backend.WebAuthnClients

/-!
# Removing credentials

`remove_credential` refuses to remove the last credential of a user, but it looks at what is
left only after it has cut the list.

Results:
1. `removals_keep_iff`: over every interleaving, a refused removal changes nothing and every
   user who has registered keeps a credential, exactly if no removal is of the last one.
2. `last_removed`: the removal of the only credential of a user is refused, and done.
-/

namespace Heirloom.Backend.WebAuthn

open Runs

/-- A step as it should be: what is refused is not done, and no user loses the last
credential. -/
structure Keeps (p : Platform) (s : System) (k : Label) (t : System) : Prop where
  step : Step p s k t
  refused : ∀ userId credId f, k.event = .removal userId credId (.error f) → t.server = s.server
  kept : ∀ userId ∈ t.enrolled, t.server.credentials.bucket userId ≠ []

/-- The user has credentials, and all of them have the identifier. -/
def IsLast (s : WebAuthnState) (userId credId : String) : Prop :=
  s.credentials.bucket userId ≠ [] ∧
    ∀ c ∈ s.credentials.bucket userId, c.credentialId = credId

/-- The action is not the removal of the last credential of a user. -/
def SparesLast (s : System) (k : Label) : Prop :=
  ∀ userId credId, k.action.request = some (.removeCredential userId credId) →
    ¬ IsLast s.server userId credId

section Removals

variable {p : Platform} {s t : System} {k : Label} {w w' : WebAuthnState}
  {userId userId' credId : String} {result : Except Failure Unit}
  {creds creds' : List StoredCredential}

theorem isLast_of_lookup (hlookup : w.credentials.lookup userId = some creds) (hne : creds ≠ [])
    (hall : ∀ c ∈ creds, c.credentialId = credId) : IsLast w userId credId := by
  unfold IsLast
  rw [Buckets.bucket_of_lookup hlookup]
  exact ⟨hne, hall⟩

/-- Refusing a removal leaves the server as it is, unless the credential was the last. -/
theorem Removes.unchanged (h : Removes w userId credId (result, w'))
    (hlast : ¬ IsLast w userId credId) {f : Failure} (hresult : result = .error f) : w' = w := by
  cases h with
  | unknown => rfl
  | missing => rfl
  | last hlookup hne hall => exact absurd (isLast_of_lookup hlookup hne hall) hlast
  | removed => cases hresult

/-- The removal of the last credential is refused, and the list of the user is empty. -/
theorem Removes.of_isLast (h : Removes w userId credId (result, w'))
    (hlast : IsLast w userId credId) :
    result = .error lastCredential ∧ w'.credentials.bucket userId = [] := by
  obtain ⟨hne, hall⟩ := hlast
  cases h with
  | unknown hlookup => exact absurd (Buckets.bucket_of_none hlookup) hne
  | missing hlookup hmissing =>
      rw [Buckets.bucket_of_lookup hlookup] at hne hall
      obtain ⟨c, hc⟩ := List.exists_mem_of_ne_nil _ hne
      exact absurd (hall c hc) (hmissing c hc)
  | last hlookup => exact ⟨rfl, Buckets.bucket_replace hlookup⟩
  | removed hlookup hkept hstored hne' =>
      rw [Buckets.bucket_of_lookup hlookup] at hall
      refine absurd ?_ hne'
      rw [hkept, List.filter_eq_nil_iff]
      intro c hc
      simp [hall c hc]

/-- Replacing a list by one that is not empty takes no user the last credential. -/
theorem bucket_replace_ne_nil (hlookup : w.credentials.lookup userId' = some creds)
    (hcreds : creds ≠ [] → creds' ≠ []) (h : w.credentials.bucket userId ≠ []) :
    (w.credentials.replace userId' creds').bucket userId ≠ [] := by
  rcases eq_or_ne userId userId' with rfl | hne
  · rw [Buckets.bucket_replace hlookup]
    rw [Buckets.bucket_of_lookup hlookup] at h
    exact hcreds h
  · rwa [Buckets.bucket_replace_ne hlookup hne]

theorem updateCredential_ne_nil {change : StoredCredential → StoredCredential} (h : creds ≠ []) :
    updateCredential creds credId change ≠ [] := by
  intro hnil
  have hlength : (updateCredential creds credId change).length = creds.length :=
    List.length_lookmap _ creds
  rw [hnil, List.length_nil] at hlength
  exact h (List.eq_nil_of_length_eq_zero hlength.symm)

theorem Removes.kept (h : Removes w userId' credId (result, w'))
    (hlast : ¬ IsLast w userId' credId) (hne : w.credentials.bucket userId ≠ []) :
    w'.credentials.bucket userId ≠ [] := by
  cases h with
  | unknown => exact hne
  | missing => exact hne
  | last hlookup hne' hall => exact absurd (isLast_of_lookup hlookup hne' hall) hlast
  | removed hlookup _ _ hkept => exact bucket_replace_ne_nil hlookup (fun _ => hkept) hne

/-- A request for a removal is served by `remove_credential`. -/
theorem Step.of_removal (h : Step p s k t)
    (hrequest : k.action.request = some (.removeCredential userId credId)) :
    ∃ result, k.event = .removal userId credId result ∧
      Removes s.server userId credId (result, t.server) := by
  cases h with
  | @serve work server hserve hfresh =>
      unfold WebAuthn.serve at hserve
      rw [hrequest] at hserve
      split at hserve
      · next request heq _ =>
        cases heq
        have hremoves := removeCredential_removes s.server userId credId
        simp only [begin, Option.some.injEq, Prod.mk.injEq] at hserve
        obtain ⟨hevent, -, hserver⟩ := hserve
        exact ⟨_, hevent.symm, hserver ▸ hremoves⟩
      · cases hserve
      · next heq => cases heq

/-- Only a request for a removal ends with a removal. -/
theorem Step.request_of_removal (h : Step p s k t)
    (hevent : k.event = .removal userId credId result) :
    k.action.request = some (.removeCredential userId credId) := by
  obtain ⟨work, server, hserved, -⟩ := h.served
  rw [hevent] at hserved
  generalize k.action.request = request at hserved ⊢
  generalize s.clients k.action.client = before at hserved
  cases hserved
  rfl

/-- A step that spares the last credentials takes no user all credentials. -/
theorem Step.kept (h : Step p s k t) (hspares : SparesLast s k)
    (hkept : ∀ userId ∈ s.enrolled, s.server.credentials.bucket userId ≠ []) :
    ∀ userId ∈ t.enrolled, t.server.credentials.bucket userId ≠ [] := by
  obtain ⟨work, server, hserved, rfl, -⟩ := h.served
  have hlast : ∀ userId credId result, k.event = .removal userId credId result →
      ¬ IsLast s.server userId credId :=
    fun userId credId _ hevent => hspares userId credId (h.request_of_removal hevent)
  obtain ⟨action, event⟩ := k
  intro userId henrolled
  dsimp only at hserved hlast
  generalize action.request = request at hserved
  generalize s.clients action.client = before at hserved
  cases hserved with
  | refused => exact hkept userId henrolled
  | begunRegistration => exact hkept userId henrolled
  | begunAuthentication => exact hkept userId henrolled
  | spoiledRegistration => exact hkept userId henrolled
  | spoiledAuthentication => exact hkept userId henrolled
  | claimedRegistration => exact hkept userId henrolled
  | claimedAuthentication => exact hkept userId henrolled
  | opening => exact hkept userId henrolled
  | backing => exact hkept userId henrolled
  | checked => exact hkept userId henrolled
  | marked hlookup =>
      exact bucket_replace_ne_nil hlookup updateCredential_ne_nil (hkept userId henrolled)
  | authenticated hlookup =>
      exact bucket_replace_ne_nil hlookup updateCredential_ne_nil (hkept userId henrolled)
  | removal hremoves => exact hremoves.kept (hlast _ _ _ rfl) (hkept userId henrolled)
  | @registered r credential =>
      show (s.server.credentials.push r.pending.userId credential).bucket userId ≠ []
      rcases eq_or_ne userId r.pending.userId with rfl | hne
      · rw [Buckets.bucket_push]
        exact List.concat_ne_nil _ _
      · rw [Buckets.bucket_push_ne hne]
        rcases List.mem_cons.mp henrolled with hsame | hbefore
        · exact absurd hsame hne
        · exact hkept userId hbefore

end Removals

/-! ## Runs -/

section Runs

variable {p : Platform} {rpId rpName origin : String} {ks : List Label} {s t : System} {k : Label}

theorem kept_run (h : Run (Keeps p) (System.new rpId rpName origin) ks t) :
    ∀ userId ∈ t.enrolled, t.server.credentials.bucket userId ≠ [] := by
  cases h with
  | start =>
      intro userId henrolled
      cases henrolled
  | next _ hk => exact hk.kept

/-- The removal of the last credential is not as it should be. -/
theorem Keeps.spares (h : Keeps p s k t) : SparesLast s k := by
  intro userId credId hrequest hlast
  obtain ⟨result, hevent, hremoves⟩ := h.step.of_removal hrequest
  obtain ⟨hresult, hempty⟩ := hremoves.of_isLast hlast
  rw [hresult] at hevent
  rw [h.refused userId credId _ hevent] at hempty
  exact hlast.1 hempty

theorem Step.keeps (h : Step p s k t) (hspares : SparesLast s k)
    (hkept : ∀ userId ∈ s.enrolled, s.server.credentials.bucket userId ≠ []) :
    Keeps p s k t := by
  refine ⟨h, ?_, h.kept hspares hkept⟩
  intro userId credId f hevent
  have hrequest : k.action.request = some (.removeCredential userId credId) :=
    h.request_of_removal hevent
  obtain ⟨result, hevent', hremoves⟩ := h.of_removal hrequest
  have hresult : result = .error f := by
    rw [hevent] at hevent'
    cases hevent'
    rfl
  exact hremoves.unchanged (hspares userId credId hrequest) hresult

/-- A run leaves what it refuses to remove, and every user who has registered a credential,
exactly if no step of it removes the last credential of a user. -/
theorem removals_keep_iff : Run (Keeps p) (System.new rpId rpName origin) ks t ↔
    Run (Guarded (Step p) SparesLast) (System.new rpId rpName origin) ks t := by
  constructor
  · intro h
    exact h.mono fun _ _ _ hk => ⟨hk.step, hk.spares⟩
  · intro h
    induction h with
    | start => exact .start
    | next _ hk ih => exact .next ih (hk.1.keeps hk.2 (kept_run ih))

end Runs

/-! ## The only credential of a user -/

namespace Sample

def removes : Action where
  client := 1
  request := some (.removeCredential "alice" "BwcHBwcHBwcHBwcHBwcHBw")
  now := ⟨1003, 0⟩
  entropy := ⟨[], []⟩

theorem removal_played : ∃ ks t, play platform server (removes :: registration) = some (ks, t) ∧
    "alice" ∈ t.enrolled ∧ t.server.credentials.bucket "alice" = [] := by
  have hstate : ((play platform server (removes :: registration)).map fun r =>
      (r.2.enrolled, r.2.server.credentials.bucket "alice")) = some (["alice"], []) := by
    decide +kernel
  obtain ⟨⟨ks, t⟩, hplay, heq⟩ := Option.map_eq_some_iff.mp hstate
  obtain ⟨henrolled, hempty⟩ := Prod.mk.inj heq
  exact ⟨ks, t, hplay, henrolled ▸ List.mem_cons_self, hempty⟩

end Sample

/-- Alice registers a credential and asks to remove it: the request is refused, and she has
none left. -/
theorem last_removed : ¬ ∀ ks t, Run (Step Sample.platform) Sample.server ks t →
    Run (Keeps Sample.platform) Sample.server ks t := by
  intro hkeeps
  obtain ⟨ks, t, hplay, henrolled, hempty⟩ := Sample.removal_played
  exact kept_run (hkeeps ks t (play_run hplay)) "alice" henrolled hempty

end Heirloom.Backend.WebAuthn
