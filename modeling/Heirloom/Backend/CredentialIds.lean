import Mathlib.Data.List.Count
import Heirloom.Backend.WebAuthnClients
import Heirloom.Lib.CheckThenInsert

/-!
# Sessions and credential identifiers

A session is taken out of its map in one section, so that it is used once. A registration
looks for its credential identifier in one section and stores the credential in a later one.

Results:
1. `ids_unique_iff`: over every interleaving a session leads to at most one completion, for
   its user and in time; the stored identifiers are unique in every state exactly if no
   registration stores an identifier that another one has stored since its check.
2. `ids_shared`: two clients that register one identifier at the same time both succeed.
-/

namespace Heirloom.Backend.WebAuthn

open Runs Tickets CheckThenInsert

/-! ## The identifiers -/

/-- All credential identifiers, over all users. -/
def WebAuthnState.ids (s : WebAuthnState) : List String :=
  s.credentials.values.map StoredCredential.credentialId

/-- The identifier that a client has found unused and will store. -/
def Work.cleared : Work → Option String
  | .storing _ credential => some credential.credentialId
  | _ => none

def System.keys (s : System) : Keys Nat String where
  count id := s.server.ids.count id
  cleared i := (s.clients i).cleared

/-- What a section does to the identifiers. Refusing to remove the last credential has removed
it. -/
def Label.keyEvent (k : Label) : KeyEvent Nat String :=
  match k.event with
  | .checked id => .checked k.action.client id
  | .registered _ id => .inserted k.action.client id
  | .removal _ id (.ok _) => .removed id
  | .removal _ id (.error f) => if f = lastCredential then .removed id else .other
  | _ => .other

section Identifiers

variable {s : WebAuthnState} {userId credId id : String} {creds kept : List StoredCredential}
  {change : StoredCredential → StoredCredential}

theorem ids_updateCredential (hchange : ∀ c, (change c).credentialId = c.credentialId) :
    (updateCredential creds credId change).map StoredCredential.credentialId =
      creds.map StoredCredential.credentialId := by
  unfold updateCredential
  refine List.lookmap_map_eq _ _ (fun c c' hc' => ?_) creds
  split at hc'
  · cases hc'
    exact (hchange c).symm
  · cases hc'

theorem count_ids_update (hlookup : s.credentials.lookup userId = some creds)
    (hchange : ∀ c, (change c).credentialId = c.credentialId) :
    ((s.credentials.replace userId (updateCredential creds credId change)).values.map
      StoredCredential.credentialId).count id = s.ids.count id := by
  have hcount := Buckets.count_values_replace (updateCredential creds credId change)
    StoredCredential.credentialId id hlookup
  rw [ids_updateCredential hchange] at hcount
  exact Nat.add_right_cancel hcount

theorem count_ids_push {credential : StoredCredential} :
    ((s.credentials.push userId credential).values.map StoredCredential.credentialId).count id =
      Function.update (fun id => s.ids.count id) credential.credentialId
        (s.ids.count credential.credentialId + 1) id := by
  have hperm := (Buckets.values_push_perm (m := s.credentials) (k := userId)
    (a := credential)).map StoredCredential.credentialId
  rw [hperm.count_eq, List.map_cons]
  rcases eq_or_ne id credential.credentialId with rfl | hne
  · rw [List.count_cons_self, Function.update_self]
    rfl
  · rw [List.count_cons_of_ne hne.symm, Function.update_of_ne hne]
    rfl

/-- Cutting a credential out of the list of a user takes away its identifier and no other. -/
theorem count_ids_cut (hlookup : s.credentials.lookup userId = some creds)
    (hkept : kept = creds.filter fun c => c.credentialId ≠ credId)
    (hstored : ∃ c ∈ creds, c.credentialId = credId) :
    ((s.credentials.replace userId kept).values.map StoredCredential.credentialId).count credId <
        s.ids.count credId ∧
      ∀ id, id ≠ credId →
        ((s.credentials.replace userId kept).values.map StoredCredential.credentialId).count id =
          s.ids.count id := by
  have hids : kept.map StoredCredential.credentialId =
      (creds.map StoredCredential.credentialId).filter fun id => id ≠ credId := by
    rw [hkept, List.filter_map]
    rfl
  have hcount : ∀ id, ((s.credentials.replace userId kept).values.map
      StoredCredential.credentialId).count id + (creds.map StoredCredential.credentialId).count id =
      s.ids.count id + (kept.map StoredCredential.credentialId).count id :=
    fun id => Buckets.count_values_replace kept _ id hlookup
  constructor
  · have hgone : (kept.map StoredCredential.credentialId).count credId = 0 := by
      rw [hids, List.count_eq_zero]
      intro hmem
      have hne : credId ≠ credId := of_decide_eq_true (List.mem_filter.mp hmem).2
      exact hne rfl
    have hthere : 0 < (creds.map StoredCredential.credentialId).count credId := by
      obtain ⟨c, hc, hid⟩ := hstored
      exact List.count_pos_iff.mpr (List.mem_map.mpr ⟨c, hc, hid⟩)
    have h := hcount credId
    omega
  · intro id hne
    have hsame : (kept.map StoredCredential.credentialId).count id =
        (creds.map StoredCredential.credentialId).count id := by
      rw [hids]
      exact List.count_filter (decide_eq_true hne)
    have h := hcount id
    omega

end Identifiers

/-! ## Steps -/

section Steps

variable {p : Platform} {s t : System} {k : Label} {work : Work} {server : WebAuthnState}

/-- The clients after a step, seen through a function of their work. -/
theorem after_clients {α : Type} (f : Work → α) : (fun i => f ((s.after k work server).clients i)) =
    Function.update (fun i => f (s.clients i)) k.action.client (f work) :=
  Function.comp_update f s.clients k.action.client work

/-- Work that clears nothing leaves no more identifiers cleared than before. -/
theorem cleared_after (hwork : work.cleared = none) (i : Nat) (id : String)
    (h : (s.after k work server).keys.cleared i = some id) : s.keys.cleared i = some id := by
  have hclients : (s.after k work server).keys.cleared =
      Function.update s.keys.cleared k.action.client work.cleared := after_clients Work.cleared
  rw [hclients, hwork] at h
  rcases eq_or_ne i k.action.client with rfl | hne
  · rw [Function.update_self] at h
    cases h
  · rwa [Function.update_of_ne hne] at h

/-- Every step checks, inserts or removes an identifier, or leaves them as they are. -/
theorem Step.keyStep (h : Step p s k t) : KeyStep s.keys k.keyEvent t.keys := by
  obtain ⟨work, server, hserved, rfl, -⟩ := h.served
  obtain ⟨action, event⟩ := k
  dsimp only at hserved
  generalize action.request = request at hserved
  generalize hbefore : s.clients action.client = before at hserved
  cases hserved with
  | refused => exact .other (fun _ => rfl) (cleared_after rfl)
  | begunRegistration => exact .other (fun _ => rfl) (cleared_after rfl)
  | begunAuthentication => exact .other (fun _ => rfl) (cleared_after rfl)
  | spoiledRegistration => exact .other (fun _ => rfl) (cleared_after rfl)
  | spoiledAuthentication => exact .other (fun _ => rfl) (cleared_after rfl)
  | claimedRegistration => exact .other (fun _ => rfl) (cleared_after rfl)
  | claimedAuthentication => exact .other (fun _ => rfl) (cleared_after rfl)
  | opening => exact .other (fun _ => rfl) (cleared_after rfl)
  | backing => exact .other (fun _ => rfl) (cleared_after rfl)
  | marked hlookup =>
      exact .other (fun _ => count_ids_update hlookup fun _ => rfl) (cleared_after rfl)
  | authenticated hlookup =>
      exact .other (fun _ => count_ids_update hlookup fun _ => rfl) (cleared_after rfl)
  | removal hremoves =>
      cases hremoves with
      | unknown => exact .other (fun _ => rfl) (cleared_after rfl)
      | missing => exact .other (fun _ => rfl) (cleared_after rfl)
      | @last creds hlookup hne hall =>
          obtain ⟨c, hc⟩ := List.exists_mem_of_ne_nil creds hne
          have hnone : [] = creds.filter fun c' => c'.credentialId ≠ c.credentialId := by
            refine (List.filter_eq_nil_iff.mpr fun c' hc' => ?_).symm
            simp [hall c' hc', hall c hc]
          obtain rfl := hall c hc
          obtain ⟨hfewer, hothers⟩ := count_ids_cut hlookup hnone ⟨c, hc, rfl⟩
          exact .removed hfewer hothers (cleared_after rfl)
      | removed hlookup hkept hstored =>
          obtain ⟨hfewer, hothers⟩ := count_ids_cut hlookup hkept hstored
          exact .removed hfewer hothers (cleared_after rfl)
  | @checked r habsent =>
      have habsent' : s.keys.count r.body.credentialId = 0 := by
        refine List.count_eq_zero.mpr fun hmem => ?_
        obtain ⟨c, hc, hid⟩ := List.mem_map.mp hmem
        exact habsent c hc hid
      have hkeys : (s.after ⟨action, .checked r.body.credentialId⟩
          (.storing r (r.credential p action.now)) s.server).keys = ⟨s.keys.count,
            Function.update s.keys.cleared action.client (some r.body.credentialId)⟩ :=
        congrArg (Keys.mk s.keys.count) (after_clients Work.cleared)
      rw [hkeys]
      exact .checked habsent'
  | @registered r credential =>
      have hcleared : s.keys.cleared action.client = some credential.credentialId :=
        congrArg Work.cleared hbefore
      have hkeys : (s.after ⟨action, .registered r.session credential.credentialId⟩ .idle
          { s.server with
            credentials := s.server.credentials.push r.pending.userId credential }).keys =
          ⟨Function.update s.keys.count credential.credentialId
              (s.keys.count credential.credentialId + 1),
            Function.update s.keys.cleared action.client none⟩ := by
        refine congrArg₂ Keys.mk (funext fun id => count_ids_push) ?_
        exact after_clients Work.cleared
      rw [hkeys]
      exact .inserted hcleared

end Steps

/-! ## Sessions -/

/-- The open sessions of a map with their user and their last second. -/
def sessions (m : AList fun _ : String => Pending) (name : String) : Option (String × Nat) :=
  (m.lookup name).map fun q => (q.userId, q.expiresAt)

def WebAuthnState.opened (s : WebAuthnState) : Kind → String → Option (String × Nat)
  | .registration => sessions s.pendingRegistrations
  | .authentication => sessions s.pendingAuthentications

/-- The session of a request that is under way. -/
def Work.held : Work → Option Session
  | .checking r => some r.session
  | .storing r _ => some r.session
  | .authenticating a => some a.session
  | _ => none

def System.counter (s : System) : Counter Nat Kind String String :=
  ⟨s.server.opened, fun i => (s.clients i).held, s.names⟩

def Label.ticketEvent (k : Label) : TicketEvent Kind String String :=
  match k.event with
  | .begun session => .issued session
  | .registered session _ => .completed session
  | .authenticated session _ _ => .completed session
  | _ => .other

section Sessions

variable {p : Platform} {s t : System} {k : Label} {work : Work} {server : WebAuthnState}
  {w : WebAuthnState} {userId sessionId name : String} {now : Moment} {entropy : Entropy}

theorem sessions_insert {m : AList fun _ : String => Pending} {q : Pending} :
    sessions (m.insert name q) =
      Function.update (sessions m) name (some (q.userId, q.expiresAt)) := by
  funext name'
  unfold sessions
  rcases eq_or_ne name' name with rfl | hne
  · rw [Function.update_self, AList.lookup_insert]
    rfl
  · rw [Function.update_of_ne hne, AList.lookup_insert_ne hne]

theorem sessions_erase {m : AList fun _ : String => Pending} :
    sessions (m.erase name) = Function.update (sessions m) name none := by
  funext name'
  unfold sessions
  rcases eq_or_ne name' name with rfl | hne
  · rw [Function.update_self, AList.lookup_erase]
    rfl
  · rw [Function.update_of_ne hne, AList.lookup_erase_ne hne]

theorem opened_registrations {m : AList fun _ : String => Pending} :
    WebAuthnState.opened { w with pendingRegistrations := m } =
      Function.update w.opened .registration (sessions m) := by
  funext kind
  cases kind with
  | registration =>
      rw [Function.update_self]
      rfl
  | authentication => rfl

theorem opened_authentications {m : AList fun _ : String => Pending} :
    WebAuthnState.opened { w with pendingAuthentications := m } =
      Function.update w.opened .authentication (sessions m) := by
  funext kind
  cases kind with
  | authentication =>
      rw [Function.update_self]
      rfl
  | registration => rfl

theorem counter_after : (s.after k work server).counter = ⟨server.opened,
    Function.update s.counter.held k.action.client work.held, k.event.names ++ s.names⟩ :=
  congrArg (fun held => (⟨server.opened, held, k.event.names ++ s.names⟩ :
    Counter Nat Kind String String)) (after_clients Work.held)

/-- Every step issues, takes, completes or drops a session, or leaves them as they are. -/
theorem Step.ticketStep (h : Step p s k t) :
    TicketStep challengeTtlSecs s.counter k.ticketEvent t.counter := by
  obtain ⟨work, server, hserved, rfl, hfresh⟩ := h.served
  obtain ⟨action, event⟩ := k
  dsimp only at hserved hfresh
  rw [counter_after]
  generalize action.request = request at hserved
  generalize hbefore : s.clients action.client = before at hserved
  have hheld : s.counter.held action.client = before.held := congrArg Work.held hbefore
  cases hserved with
  | refused => exact .dropped
  | begunRegistration =>
      rw [openRegistration, newSession, opened_registrations, sessions_insert]
      exact .issued (hfresh _ List.mem_cons_self)
  | begunAuthentication =>
      rw [openAuthentication, newSession, opened_authentications, sessions_insert]
      exact .issued (hfresh _ List.mem_cons_self)
  | spoiledRegistration =>
      rw [opened_registrations, sessions_erase]
      exact .spoiled
  | spoiledAuthentication =>
      rw [opened_authentications, sessions_erase]
      exact .spoiled
  | @claimedRegistration _ _ r hlookup htime =>
      rw [opened_registrations, sessions_erase]
      have hopened : s.counter.opened r.session.kind r.session.name =
          some (r.session.owner, r.pending.expiresAt) := by
        show sessions s.server.pendingRegistrations r.body.sessionId = _
        rw [sessions, hlookup]
        rfl
      exact .claimed hopened htime
  | @claimedAuthentication _ _ a hlookup htime =>
      rw [opened_authentications, sessions_erase]
      have hopened : s.counter.opened a.session.kind a.session.name =
          some (a.session.owner, a.pending.expiresAt) := by
        show sessions s.server.pendingAuthentications a.body.sessionId = _
        rw [sessions, hlookup]
        rfl
      exact .claimed hopened htime
  | opening => exact .dropped
  | backing => exact .dropped
  | marked => exact .dropped
  | removal hremoves =>
      cases hremoves with
      | unknown => exact .dropped
      | missing => exact .dropped
      | last => exact .dropped
      | removed => exact .dropped
  | @checked r _ =>
      -- the session stays with its request
      have hsame : Function.update s.counter.held action.client (some r.session) =
          s.counter.held := by
        have hsession : s.counter.held action.client = some r.session := hheld
        rw [← hsession]
        exact Function.update_eq_self _ _
      show TicketStep _ s.counter .other ⟨s.server.opened,
        Function.update s.counter.held action.client (some r.session), s.names⟩
      rw [hsame]
      exact .other
  | registered => exact .completed hheld
  | authenticated => exact .completed hheld

end Sessions

/-! ## Runs -/

variable {p : Platform} {rpId rpName origin : String} {ks : List Label} {t : System}

theorem counter_new : (System.new rpId rpName origin).counter = start := by
  refine congrArg (fun opened => (⟨opened, fun _ => none, []⟩ : Counter Nat Kind String String)) ?_
  funext kind
  cases kind <;> rfl

/-- In every run a session id leads to at most one completion, for the user it was begun for
and not later than `challengeTtlSecs` after; and the identifiers are unique in every state
exactly if no registration stores an identifier that has been stored since its check. -/
theorem ids_unique_iff (h : Run (Step p) (System.new rpId rpName origin) ks t) :
    (Honoured challengeTtlSecs (ks.map Label.ticketEvent) ∧
      Run (Keeping (Step p) System.keys) (System.new rpId rpName origin) ks t) ↔
      Undisturbed (ks.map Label.keyEvent) := by
  have hhonoured : Honoured challengeTtlSecs (ks.map Label.ticketEvent) :=
    honoured_run h counter_new fun _ _ _ => Step.ticketStep
  have hunique : Run (Keeping (Step p) System.keys) (System.new rpId rpName origin) ks t ↔
      Undisturbed (ks.map Label.keyEvent) := unique_iff h rfl fun _ _ _ => Step.keyStep
  exact ⟨fun hall => hunique.mp hall.2, fun hundisturbed => ⟨hhonoured, hunique.mpr hundisturbed⟩⟩

/-! ## Two clients and one identifier -/

namespace Sample

/-- Both clients look for the identifier before either stores it. -/
def race : List Action :=
  [goesOn 2 0 0, goesOn 1 0 0, goesOn 2 0 0, goesOn 1 0 0, completes 2 12 created₂,
    completes 1 11 created₁, begins 2 "mallory" 2 12, begins 1 "alice" 1 11]

theorem race_played : ∃ ks t, play platform server race = some (ks, t) ∧
    t.server.ids.count "BwcHBwcHBwcHBwcHBwcHBw" = 2 := by
  have hcount : ((play platform server race).map fun r =>
      r.2.server.ids.count "BwcHBwcHBwcHBwcHBwcHBw") = some 2 := by decide +kernel
  obtain ⟨⟨ks, t⟩, hplay, hids⟩ := Option.map_eq_some_iff.mp hcount
  exact ⟨ks, t, hplay, hids⟩

end Sample

/-- The run in which two users register one credential. -/
theorem ids_unique_iff_race : ∃ ks t, Run (Step Sample.platform) Sample.server ks t ∧
    ((Honoured challengeTtlSecs (ks.map Label.ticketEvent) ∧
      Run (Keeping (Step Sample.platform) System.keys) Sample.server ks t) ↔
      Undisturbed (ks.map Label.keyEvent)) := by
  obtain ⟨ks, t, hplay, -⟩ := Sample.race_played
  exact ⟨ks, t, play_run hplay, ids_unique_iff (play_run hplay)⟩

/-- Two clients that register one identifier at the same time both succeed. -/
theorem ids_shared : ¬ ∀ ks t, Run (Step Sample.platform) Sample.server ks t → Unique t.keys := by
  intro hunique
  obtain ⟨ks, t, hplay, hcount⟩ := Sample.race_played
  have hone : t.server.ids.count "BwcHBwcHBwcHBwcHBwcHBw" ≤ 1 := hunique ks t (play_run hplay) _
  omega

end Heirloom.Backend.WebAuthn
