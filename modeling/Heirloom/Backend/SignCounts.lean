import Heirloom.Backend.WebAuthnClients

/-!
# Signature counters

The counter of a credential has to rise with every authentication; authenticators without a
counter send 0 and are exempt. The check exempts a request that sends 0, whatever the stored
counter is.

Results:
1. `counts_rise_iff`: over every interleaving, the counts accepted for a credential rise above
   every earlier one that is not 0, and no authentication lowers the stored counter, exactly if
   no authentic request with the count 0 meets a counter that is not 0.
2. `count_reset`: a request with the count 0 is accepted after one with the count 5.
-/

namespace Heirloom.Backend.WebAuthn

open Runs

/-! ## What is claimed of a run -/

/-- The counts accepted for a credential of a user since it was last removed, the newest
first. -/
def acceptedCounts (userId credentialId : String) : List Label → List UInt32
  | [] => []
  | k :: ks =>
      match k.event with
      | .authenticated session id count =>
          if session.owner = userId ∧ id = credentialId then
            count :: acceptedCounts userId credentialId ks
          else acceptedCounts userId credentialId ks
      | .removal user id _ =>
          if user = userId ∧ id = credentialId then [] else acceptedCounts userId credentialId ks
      | _ => acceptedCounts userId credentialId ks

/-- Every accepted count is greater than all earlier ones of its credential that are not 0. -/
def Rising : List Label → Prop
  | [] => True
  | k :: ks => Rising ks ∧ ∀ session id count, k.event = .authenticated session id count →
      ∀ earlier ∈ acceptedCounts session.owner id ks, earlier ≠ 0 → earlier < count

/-- A step that does not lower the counter of the credential it authenticates. -/
def NeverLowers (p : Platform) (s : System) (k : Label) (t : System) : Prop :=
  Step p s k t ∧ ∀ session id count, k.event = .authenticated session id count →
    ∀ cred cred', s.server.credential session.owner id = some cred →
      t.server.credential session.owner id = some cred' → cred.signCount ≤ cred'.signCount

/-- The action is not an authentic request with the count 0 for a counter that is not 0. -/
def NoReset (p : Platform) (s : System) (k : Label) : Prop :=
  ∀ a cred, k.action.request = none → s.clients k.action.client = .authenticating a →
    authenticCredential p s.server a = .ok cred → a.newSignCount = 0 → cred.signCount = 0

/-! ## The credential of a user -/

section Credentials

variable {s : WebAuthnState} {userId userId' credId credId' : String}
  {creds kept : List StoredCredential} {change : StoredCredential → StoredCredential}

theorem updateCredential_cons_of_eq {c : StoredCredential} (h : c.credentialId = credId) :
    updateCredential (c :: creds) credId change = change c :: creds :=
  List.lookmap_cons_some _ _ (if_pos h)

theorem updateCredential_cons_of_ne {c : StoredCredential} (h : c.credentialId ≠ credId) :
    updateCredential (c :: creds) credId change = c :: updateCredential creds credId change :=
  List.lookmap_cons_none _ _ (if_neg h)

theorem find_updateCredential_self (hchange : ∀ c, (change c).credentialId = c.credentialId) :
    (updateCredential creds credId change).find? (fun c => c.credentialId = credId) =
      (creds.find? fun c => c.credentialId = credId).map change := by
  induction creds with
  | nil => rfl
  | cons c creds ih =>
      rcases eq_or_ne c.credentialId credId with hid | hid
      · rw [updateCredential_cons_of_eq hid]
        simp [hchange c, hid]
      · rw [updateCredential_cons_of_ne hid]
        simp [hid, ih]

theorem find_updateCredential_ne (hchange : ∀ c, (change c).credentialId = c.credentialId)
    (hne : credId' ≠ credId) :
    (updateCredential creds credId change).find? (fun c => c.credentialId = credId') =
      creds.find? fun c => c.credentialId = credId' := by
  induction creds with
  | nil => rfl
  | cons c creds ih =>
      rcases eq_or_ne c.credentialId credId with hid | hid
      · rw [updateCredential_cons_of_eq hid]
        simp [hchange c, hid, hne.symm]
      · rw [updateCredential_cons_of_ne hid, List.find?_cons, List.find?_cons, ih]

theorem credential_replace (hlookup : s.credentials.lookup userId = some creds) :
    WebAuthnState.credential { s with credentials := s.credentials.replace userId kept } userId
      credId = kept.find? fun c => c.credentialId = credId := by
  unfold WebAuthnState.credential
  rw [Buckets.bucket_replace hlookup]

theorem credential_replace_ne (hlookup : s.credentials.lookup userId = some creds)
    (hne : userId' ≠ userId) :
    WebAuthnState.credential { s with credentials := s.credentials.replace userId kept } userId'
      credId = s.credential userId' credId := by
  unfold WebAuthnState.credential
  rw [Buckets.bucket_replace_ne hlookup hne]

theorem credential_of_lookup (hlookup : s.credentials.lookup userId = some creds) :
    s.credential userId credId = creds.find? fun c => c.credentialId = credId := by
  unfold WebAuthnState.credential
  rw [Buckets.bucket_of_lookup hlookup]

/-- A change that keeps identifiers and counters changes neither for any user. -/
theorem signCount_update (hlookup : s.credentials.lookup userId = some creds)
    (hid : ∀ c, (change c).credentialId = c.credentialId)
    (hcount : ∀ c, (change c).signCount = c.signCount) :
    (WebAuthnState.credential
        { s with credentials := s.credentials.replace userId (updateCredential creds credId change) }
        userId' credId').map StoredCredential.signCount =
      (s.credential userId' credId').map StoredCredential.signCount := by
  rcases eq_or_ne userId' userId with rfl | huser
  · rw [credential_replace hlookup, credential_of_lookup hlookup]
    rcases eq_or_ne credId' credId with rfl | hne
    · rw [find_updateCredential_self hid, Option.map_map]
      exact Option.map_congr fun c _ => hcount c
    · rw [find_updateCredential_ne hid hne]
  · rw [credential_replace_ne hlookup huser]

/-- After a cut the credential is gone, and all others are as they were. -/
theorem credential_cut (hlookup : s.credentials.lookup userId = some creds)
    (hkept : kept = creds.filter fun c => c.credentialId ≠ credId) :
    WebAuthnState.credential { s with credentials := s.credentials.replace userId kept } userId'
      credId' = if userId' = userId ∧ credId' = credId then none
        else s.credential userId' credId' := by
  rcases eq_or_ne userId' userId with rfl | huser
  · rw [credential_replace hlookup, credential_of_lookup hlookup, hkept, List.find?_filter]
    rcases eq_or_ne credId' credId with rfl | hne
    · rw [if_pos ⟨rfl, rfl⟩, List.find?_eq_none]
      simp
    · rw [if_neg fun h => hne h.2]
      congr 1
      funext c
      by_cases hid : c.credentialId = credId'
      · simp [hid, hne]
      · simp [hid]
  · rw [credential_replace_ne hlookup huser, if_neg fun h => huser h.1]

theorem credential_push {credential : StoredCredential} :
    WebAuthnState.credential { s with credentials := s.credentials.push userId credential } userId'
      credId' = (s.credential userId' credId').or
        (if userId' = userId ∧ credential.credentialId = credId' then some credential
          else none) := by
  unfold WebAuthnState.credential
  rcases eq_or_ne userId' userId with rfl | huser
  · rw [Buckets.bucket_push, List.find?_append, List.find?_singleton]
    simp
  · rw [Buckets.bucket_push_ne huser, if_neg fun h => huser h.1, Option.or_none]

end Credentials

/-! ## The counter of a credential over a run -/

/-- The stored counter of a credential, if there is one. -/
def WebAuthnState.counter (s : WebAuthnState) (userId credId : String) : Option UInt32 :=
  (s.credential userId credId).map StoredCredential.signCount

/-- What an event makes of a counter. -/
def Event.recount (userId credId : String) (before : Option UInt32) : Event → Option UInt32
  | .authenticated session id count =>
      if session.owner = userId ∧ id = credId then some count else before
  | .removal user id _ => if user = userId ∧ id = credId then none else before
  | .registered session id =>
      before.or (if session.owner = userId ∧ id = credId then some 0 else none)
  | _ => before

section Counters

variable {p : Platform} {s t : System} {w w' : WebAuthnState} {k : Label} {now : Moment}
  {userId userId' credId credId' : String} {event : Event} {work work' : Work}
  {request : Option Request} {result : Except Failure Unit}

/-- After a removal, also one that is refused, the credential is not stored. -/
theorem Removes.credential (h : Removes w userId credId (result, w')) :
    w'.credential userId' credId' =
      if userId' = userId ∧ credId' = credId then none else w.credential userId' credId' := by
  have hunstored (habsent : w.credential userId credId = none) : w.credential userId' credId' =
      if userId' = userId ∧ credId' = credId then none else w.credential userId' credId' := by
    split
    · next hsame =>
      rw [hsame.1, hsame.2]
      exact habsent
    · rfl
  cases h with
  | unknown hlookup =>
      refine hunstored ?_
      unfold WebAuthnState.credential
      rw [Buckets.bucket_of_none hlookup]
      rfl
  | missing hlookup hmissing =>
      refine hunstored ?_
      rw [credential_of_lookup hlookup, List.find?_eq_none]
      intro c hc
      simpa using hmissing c hc
  | last hlookup _ hall =>
      refine credential_cut hlookup (List.filter_eq_nil_iff.mpr fun c hc => ?_).symm
      simp [hall c hc]
  | removed hlookup hkept => exact credential_cut hlookup hkept

theorem counter_counted {a : Authentication} {cred : StoredCredential}
    {creds : List StoredCredential}
    (hlookup : w.credentials.lookup a.pending.userId = some creds)
    (hcred : w.credential a.pending.userId a.body.credentialId = some cred) :
    WebAuthnState.counter
        { w with
          credentials := w.credentials.replace a.pending.userId
            (updateCredential creds a.body.credentialId (counting a now)) } userId credId =
      if a.pending.userId = userId ∧ a.body.credentialId = credId then some a.newSignCount
      else w.counter userId credId := by
  have hchange : ∀ c, (counting a now c).credentialId = c.credentialId := fun _ => rfl
  unfold WebAuthnState.counter
  rcases eq_or_ne userId a.pending.userId with rfl | huser
  · rw [credential_replace hlookup]
    rcases eq_or_ne credId a.body.credentialId with rfl | hid
    · rw [find_updateCredential_self hchange, ← credential_of_lookup hlookup, hcred,
        if_pos ⟨rfl, rfl⟩]
      rfl
    · rw [find_updateCredential_ne hchange hid, credential_of_lookup hlookup,
        if_neg fun h => hid h.2.symm]
  · rw [credential_replace_ne hlookup huser, if_neg fun h => huser h.1.symm]

/-- A section that leaves a credential to store has made it. -/
theorem Served.storing {r : Registration} {c : StoredCredential}
    (h : Served p w now request work event (.storing r c) w') : c.signCount = 0 := by
  cases h
  rfl

/-- A section changes the counters as its event says. -/
theorem Served.counter (h : Served p w now request work event work' w')
    (hnew : ∀ r c, work = .storing r c → c.signCount = 0) :
    w'.counter userId credId = event.recount userId credId (w.counter userId credId) := by
  cases h with
  | refused => rfl
  | begunRegistration => rfl
  | begunAuthentication => rfl
  | spoiledRegistration => rfl
  | spoiledAuthentication => rfl
  | claimedRegistration => rfl
  | claimedAuthentication => rfl
  | opening => rfl
  | backing => rfl
  | checked => rfl
  | marked hlookup => exact signCount_update hlookup (fun _ => rfl) fun _ => rfl
  | @removal user id result _ hremoves =>
      unfold WebAuthnState.counter
      rw [hremoves.credential]
      by_cases hsame : userId = user ∧ credId = id
      · rw [if_pos hsame]
        exact (if_pos ⟨hsame.1.symm, hsame.2.symm⟩).symm
      · rw [if_neg hsame]
        exact (if_neg fun h => hsame ⟨h.1.symm, h.2.symm⟩).symm
  | @registered r credential =>
      have hzero : credential.signCount = 0 := hnew r credential rfl
      unfold WebAuthnState.counter
      rw [credential_push]
      cases hcred : w.credential userId credId with
      | some cred => rfl
      | none =>
          by_cases hsame : userId = r.pending.userId ∧ credential.credentialId = credId
          · rw [if_pos hsame]
            show some credential.signCount = if _ then some 0 else none
            rw [if_pos ⟨hsame.1.symm, hsame.2⟩, hzero]
          · rw [if_neg hsame]
            exact (if_neg fun h => hsame ⟨h.1.symm, h.2⟩).symm
  | authenticated hlookup hcred => exact counter_counted hlookup (authenticCredential_ok hcred).2

/-- The counter is the newest accepted count, or 0; without a credential nothing has been
accepted. -/
def Matches : Option UInt32 → List UInt32 → Prop
  | some count, counts => count = counts.headD 0
  | none, counts => counts = []

/-- The invariant: the counters are the accepted counts, and what is about to be stored has
the counter 0. -/
structure Recorded (ks : List Label) (s : System) : Prop where
  storing : ∀ i r c, s.clients i = .storing r c → c.signCount = 0
  counters : ∀ userId credId,
    Matches (s.server.counter userId credId) (acceptedCounts userId credId ks)

theorem matches_recount {before : Option UInt32} {ks : List Label}
    (h : Matches before (acceptedCounts userId credId ks)) :
    Matches (k.event.recount userId credId before) (acceptedCounts userId credId (k :: ks)) := by
  obtain ⟨action, event⟩ := k
  cases event with
  | authenticated session id count =>
      simp only [Event.recount, acceptedCounts]
      split
      · exact rfl
      · exact h
  | removal user id result =>
      simp only [Event.recount, acceptedCounts]
      split
      · exact rfl
      · exact h
  | registered session id =>
      simp only [Event.recount, acceptedCounts]
      cases before with
      | some count => exact h
      | none =>
          -- a new credential starts at 0, and nothing has been accepted for it
          have hnone : acceptedCounts userId credId ks = [] := h
          rw [hnone]
          split
          · exact rfl
          · exact rfl
  | begun session => exact h
  | checked id => exact h
  | refused f => exact h
  | quiet => exact h

theorem Recorded.step {ks : List Label} (h : Recorded ks s) (hstep : Step p s k t) :
    Recorded (k :: ks) t := by
  obtain ⟨work, server, hserved, rfl, -⟩ := hstep.served
  refine ⟨?_, ?_⟩
  · intro i r c hi
    rcases eq_or_ne i k.action.client with rfl | hne
    · have hwork : work = .storing r c := (Function.update_self _ _ _).symm.trans hi
      rw [hwork] at hserved
      exact hserved.storing
    · exact h.storing i r c ((Function.update_of_ne hne _ _).symm.trans hi)
  · intro userId credId
    have hcounter : server.counter userId credId =
        k.event.recount userId credId (s.server.counter userId credId) :=
      hserved.counter (h.storing k.action.client)
    show Matches (server.counter userId credId) _
    rw [hcounter]
    exact matches_recount (h.counters userId credId)

end Counters

/-! ## Runs -/

/-- No accepted count is greater than the newest one. -/
def Capped (ks : List Label) : Prop :=
  ∀ userId credId, ∀ count ∈ acceptedCounts userId credId ks,
    count ≤ (acceptedCounts userId credId ks).headD 0

section Runs

variable {p : Platform} {rpId rpName origin : String} {ks : List Label} {s t : System} {k : Label}

theorem recorded_run (h : Run (Step p) (System.new rpId rpName origin) ks t) : Recorded ks t := by
  refine h.invariantHistory ⟨?_, fun _ _ => rfl⟩ fun _ _ _ _ => Recorded.step
  intro i r c hi
  cases hi

/-- An authentic request with the count 0 is accepted. -/
theorem Step.of_zero {a : Authentication} {cred : StoredCredential} (h : Step p s k t)
    (hrequest : k.action.request = none) (hwork : s.clients k.action.client = .authenticating a)
    (hcred : authenticCredential p s.server a = .ok cred) (hzero : a.newSignCount = 0) :
    k.event = .authenticated a.session a.body.credentialId 0 := by
  have hcount : ¬ (a.newSignCount ≠ 0 ∧ a.newSignCount ≤ cred.signCount) :=
    fun hclone => hclone.1 hzero
  cases h with
  | serve hserve hfresh =>
      simp only [WebAuthn.serve, hrequest, hwork, resume, authenticate, hcred, if_neg hcount,
        Option.some.injEq, Prod.mk.injEq] at hserve
      rw [← hserve.1, hzero]

/-- The counter of a credential that a request proves is the newest count accepted for it. -/
theorem Recorded.newest {a : Authentication} {cred : StoredCredential} (h : Recorded ks s)
    (hcred : authenticCredential p s.server a = .ok cred) :
    cred.signCount = (acceptedCounts a.pending.userId a.body.credentialId ks).headD 0 := by
  have hstored : s.server.counter a.pending.userId a.body.credentialId = some cred.signCount := by
    unfold WebAuthnState.counter
    rw [(authenticCredential_ok hcred).2]
    rfl
  have hmatches := h.counters a.pending.userId a.body.credentialId
  rw [hstored] at hmatches
  exact hmatches

/-- Where the accepted counts rise, no counter that is not 0 meets the count 0. -/
theorem Recorded.noReset (h : Recorded ks s) (hstep : Step p s k t) (hrising : Rising (k :: ks)) :
    NoReset p s k := by
  intro a cred hrequest hwork hcred hzero
  have hevent : k.event = .authenticated a.session a.body.credentialId 0 :=
    hstep.of_zero hrequest hwork hcred hzero
  have hnewest : cred.signCount = _ := h.newest hcred
  have habove : ∀ earlier ∈ acceptedCounts a.pending.userId a.body.credentialId ks,
      earlier ≠ 0 → earlier < 0 := hrising.2 _ _ _ hevent
  cases hcounts : acceptedCounts a.pending.userId a.body.credentialId ks with
  | nil =>
      rw [hcounts] at hnewest
      exact hnewest
  | cons newest counts =>
      rw [hcounts] at hnewest habove
      by_contra hne
      rw [(hnewest : cred.signCount = newest)] at hne
      exact UInt32.not_lt_zero (habove newest List.mem_cons_self hne)

/-- A step without a reset accepts only what is above all earlier counts, and lowers no
counter. -/
theorem Recorded.rises (h : Recorded ks s) (hcapped : Capped ks) (hstep : Step p s k t)
    (hnoReset : NoReset p s k) (session : Session) (id : String) (count : UInt32)
    (hevent : k.event = .authenticated session id count) :
    (acceptedCounts session.owner id ks).headD 0 ≤ count ∧
      ∀ earlier ∈ acceptedCounts session.owner id ks, earlier ≠ 0 → earlier < count := by
  obtain ⟨work, server, hserved, -⟩ := hstep.served
  rw [hevent] at hserved
  generalize hrequest : k.action.request = request at hserved
  generalize hwork : s.clients k.action.client = before at hserved
  cases hserved with
  | @authenticated a cred creds hlookup hcred hcount =>
      have hnewest : (acceptedCounts a.session.owner a.body.credentialId ks).headD 0 =
          cred.signCount := (h.newest hcred).symm
      by_cases hzero : a.newSignCount = 0
      · have hcred0 : cred.signCount = 0 := hnoReset a cred hrequest hwork hcred hzero
        refine ⟨?_, fun earlier hearlier hne => absurd ?_ hne⟩
        · rw [hnewest, hcred0]
          exact UInt32.zero_le
        · have hle := hcapped _ _ earlier hearlier
          rw [hnewest, hcred0] at hle
          exact UInt32.le_zero_iff.mp hle
      · have hlt : cred.signCount < a.newSignCount :=
          UInt32.not_le.mp fun hle => hcount ⟨hzero, hle⟩
        refine ⟨?_, fun earlier hearlier _ => ?_⟩
        · rw [hnewest]
          exact UInt32.le_of_lt hlt
        · have hle := hcapped _ _ earlier hearlier
          rw [hnewest] at hle
          exact UInt32.lt_of_le_of_lt hle hlt

theorem Capped.cons (h : Capped ks)
    (hrises : ∀ session id count, k.event = .authenticated session id count →
      (acceptedCounts session.owner id ks).headD 0 ≤ count) : Capped (k :: ks) := by
  intro userId credId count hcount
  obtain ⟨action, event⟩ := k
  cases event with
  | authenticated session id new =>
      simp only [acceptedCounts] at hcount ⊢
      split at hcount
      · next hsame =>
        obtain ⟨rfl, rfl⟩ := hsame
        rw [if_pos ⟨rfl, rfl⟩]
        rcases List.mem_cons.mp hcount with rfl | hold
        · exact UInt32.le_refl _
        · exact UInt32.le_trans (h _ _ count hold) (hrises session id new rfl)
      · next hother =>
        rw [if_neg hother]
        exact h userId credId count hcount
  | removal user id result =>
      simp only [acceptedCounts] at hcount ⊢
      split at hcount
      · cases hcount
      · next hother =>
        rw [if_neg hother]
        exact h userId credId count hcount
  | begun session => exact h userId credId count hcount
  | checked id => exact h userId credId count hcount
  | registered session id => exact h userId credId count hcount
  | refused f => exact h userId credId count hcount
  | quiet => exact h userId credId count hcount

/-- A step that accepts no less than the newest count lowers no counter. -/
theorem Recorded.neverLowers (h : Recorded ks s) (hstep : Step p s k t)
    (hrises : ∀ session id count, k.event = .authenticated session id count →
      (acceptedCounts session.owner id ks).headD 0 ≤ count) : NeverLowers p s k t := by
  refine ⟨hstep, fun session id count hevent cred cred' hcred hcred' => ?_⟩
  have hbefore := h.counters session.owner id
  have hafter := (h.step hstep).counters session.owner id
  rw [WebAuthnState.counter, hcred] at hbefore
  rw [WebAuthnState.counter, hcred'] at hafter
  have hnew : acceptedCounts session.owner id (k :: ks) =
      count :: acceptedCounts session.owner id ks := by
    simp [acceptedCounts, hevent]
  rw [hnew] at hafter
  have hold : cred.signCount = (acceptedCounts session.owner id ks).headD 0 := hbefore
  have hcount : cred'.signCount = count := hafter
  rw [hold, hcount]
  exact hrises session id count hevent

/-- The invariant of a run without resets. -/
theorem rising_run (h : Run (Guarded (Step p) (NoReset p)) (System.new rpId rpName origin) ks t) :
    Rising ks ∧ Capped ks ∧ Run (NeverLowers p) (System.new rpId rpName origin) ks t := by
  induction h with
  | start => exact ⟨trivial, fun _ _ _ hcount => absurd hcount List.not_mem_nil, .start⟩
  | next hrun hk ih =>
      obtain ⟨hrising, hcapped, hnever⟩ := ih
      have hrecorded : Recorded _ _ := recorded_run hrun.unguard
      have hrises := hrecorded.rises hcapped hk.1 hk.2
      refine ⟨⟨hrising, fun session id count hevent => (hrises session id count hevent).2⟩, ?_, ?_⟩
      · exact hcapped.cons fun session id count hevent => (hrises session id count hevent).1
      · exact .next hnever (hrecorded.neverLowers hk.1
          fun session id count hevent => (hrises session id count hevent).1)

/-- The accepted counts of every credential rise and no authentication lowers its counter,
exactly if no authentic request with the count 0 meets a counter that is not 0. -/
theorem counts_rise_iff :
    (Rising ks ∧ Run (NeverLowers p) (System.new rpId rpName origin) ks t) ↔
      Run (Guarded (Step p) (NoReset p)) (System.new rpId rpName origin) ks t := by
  constructor
  · rintro ⟨hrising, hnever⟩
    induction hnever with
    | start => exact .start
    | next hrun hk ih =>
        have hrecorded : Recorded _ _ := recorded_run (hrun.mono fun _ _ _ hstep => hstep.1)
        exact .next (ih hrising.1) ⟨hk.1, hrecorded.noReset hk.1 hrising⟩
  · intro h
    obtain ⟨hrising, -, hnever⟩ := rising_run h
    exact ⟨hrising, hnever⟩

/-- In particular no count that is not 0 is accepted twice for a credential. -/
theorem Rising.pairwise (h : Rising ks) (userId credId : String) :
    (acceptedCounts userId credId ks).Pairwise fun later earlier =>
      earlier ≠ 0 → earlier < later := by
  induction ks with
  | nil => exact List.Pairwise.nil
  | cons k ks ih =>
      obtain ⟨hrising, hevent⟩ := h
      obtain ⟨action, event⟩ := k
      cases event with
      | authenticated session id count =>
          simp only [acceptedCounts]
          split
          · next hsame =>
            obtain ⟨rfl, rfl⟩ := hsame
            exact List.pairwise_cons.mpr ⟨hevent session id count rfl, ih hrising⟩
          · exact ih hrising
      | removal user id result =>
          simp only [acceptedCounts]
          split
          · exact List.Pairwise.nil
          · exact ih hrising
      | begun session => exact ih hrising
      | checked id => exact ih hrising
      | registered session id => exact ih hrising
      | refused f => exact ih hrising
      | quiet => exact ih hrising

end Runs

/-! ## A counter that is reset -/

namespace Sample

def asksToAuthenticate : Action where
  client := 1
  request := some (.beginAuthentication ⟨"alice"⟩)
  now := ⟨1003, 0⟩
  entropy := ⟨[], []⟩

def asserts (token signCount : UInt8) (clientData signature : Bytes) : Action where
  client := 1
  request := some (.completeAuthentication
    { sessionId := platform.b64urlEncode (filled token)
      credentialId := platform.b64urlEncode credentialId
      clientDataJson := platform.b64urlEncode clientData
      authenticatorData := platform.b64urlEncode (assertedData signCount)
      signature := platform.b64urlEncode signature })
  now := ⟨1004, 0⟩
  entropy := ⟨[], []⟩

/-- Alice registers and authenticates with the count 5, and then with the count 0. -/
def resetting : List Action :=
  [goesOn 1 0 0, asserts 13 0 got₃ signature₃, goesOn 1 3 13, asksToAuthenticate,
    goesOn 1 0 0, asserts 12 5 got₂ signature₂, goesOn 1 2 12, asksToAuthenticate] ++ registration

theorem reset_played : ∃ ks t, play platform server resetting = some (ks, t) ∧
    acceptedCounts "alice" "BwcHBwcHBwcHBwcHBwcHBw" ks = [0, 5] := by
  have hcounts : ((play platform server resetting).map fun r =>
      acceptedCounts "alice" "BwcHBwcHBwcHBwcHBwcHBw" r.1) = some [0, 5] := by decide +kernel
  obtain ⟨⟨ks, t⟩, hplay, heq⟩ := Option.map_eq_some_iff.mp hcounts
  exact ⟨ks, t, hplay, heq⟩

end Sample

/-- After the count 5 the count 0 is accepted, and the counter starts again. -/
theorem count_reset : ¬ ∀ ks t, Run (Step Sample.platform) Sample.server ks t →
    Rising ks ∧ Run (NeverLowers Sample.platform) Sample.server ks t := by
  intro hrise
  obtain ⟨ks, t, hplay, hcounts⟩ := Sample.reset_played
  have hpairwise := (hrise ks t (play_run hplay)).1.pairwise "alice" "BwcHBwcHBwcHBwcHBwcHBw"
  rw [hcounts] at hpairwise
  exact absurd hpairwise (by decide)

end Heirloom.Backend.WebAuthn
