import Heirloom.System

/-!
# Snapshots of a vault

A snapshot is stored under the time at which it was taken, and that time is put on
a list. The list is kept to `maxSnapshots` entries: what is taken when it is full
drops its first entry and the snapshot stored for it.

* `listed_snapshots_exist`: of every run in which the time that is dropped is
  listed only once, every listed time has its snapshot, with the hash of its vault.
* `listed_snapshot_lost`: two snapshots of one ledger share their place in the store
  but have two places on the list; dropping one of them loses both.
-/

namespace Heirloom

open Transaction Runs

/-- The times on the list of vault `id`. -/
def State.snapshotTimes (s : State) (id : Nat) : List Nat :=
  (s.get (.vaultSnapshotTimestamps id)).getD []

/-- What is dropped from a full list is on it once, and is not put there now. -/
def DropsOne (s : State) (e : Env) : Call → Prop
  | .vault (.createVaultSnapshot id) => ∀ oldest rest, s.snapshotTimes id = oldest :: rest →
      maxSnapshots ≤ (s.snapshotTimes id).length → oldest ∉ rest ∧ oldest ≠ e.timestamp
  | _ => True

/-- The snapshot carries the hash of its vault, as the host has computed it when it was
taken. -/
def Hashed (ks : List Event) (id : Nat) (snapshot : VaultSnapshot) : Prop :=
  ∃ e, .call e (.vault (.createVaultSnapshot id)) ∈ ks ∧
    snapshot.contentHash = e.sha256 (e.toXdr snapshot.vault)

/-- The list of vault `id` is bounded, and every listed time has its snapshot, with the hash of the
vault as it was. -/
structure Listed (ks : List Event) (s : State) (id : Nat) : Prop where
  bounded : (s.snapshotTimes id).length ≤ maxSnapshots
  stored : ∀ time ∈ s.snapshotTimes id, ∃ snapshot, s.get (.vaultSnapshot id time) = some snapshot ∧
    Hashed ks id snapshot

/-- What a call that takes a snapshot has done. -/
structure Snaps (id : Nat) (e : Env) (s t : State) : Prop where
  vault : t.vault id = s.vault id
  /-- There is room on the list, or its first entry is dropped. -/
  list : ((s.snapshotTimes id).length < maxSnapshots ∧
      t.snapshotTimes id = s.snapshotTimes id ++ [e.timestamp] ∧
      ∃ v, ∀ time, t.get (.vaultSnapshot id time) =
        if time = e.timestamp then some ⟨v, e.timestamp, e.sha256 (e.toXdr v)⟩
        else s.get (.vaultSnapshot id time)) ∨
    ∃ oldest rest, s.snapshotTimes id = oldest :: rest ∧
      maxSnapshots ≤ (s.snapshotTimes id).length ∧
      t.snapshotTimes id = rest ++ [e.timestamp] ∧
      ∃ v, ∀ time, t.get (.vaultSnapshot id time) =
        if time = oldest then none
        else if time = e.timestamp then some ⟨v, e.timestamp, e.sha256 (e.toXdr v)⟩
        else s.get (.vaultSnapshot id time)

section Snapshots

variable {e : Env} {s t : State} {id : Nat} {v : Vault} {c : Call} {ks : List Event}

theorem get_put_snapshot {time now : Nat} {snapshot : VaultSnapshot} :
    (s.put (.vaultSnapshot id now) snapshot).get (.vaultSnapshot id time) =
      if time = now then some snapshot else s.get (.vaultSnapshot id time) := by
  by_cases h : time = now
  · subst h
    simp
  · simp [h]

theorem createVaultSnapshot_spec : wp (createVaultSnapshot id) (fun _ t => Snaps id e s t) e s := by
  simp only [createVaultSnapshot, Tx.wp_bind, wp_loadVault, wp_timestamp, Tx.wp_ask, wp_storageSet,
    wp_storageGet, Tx.wp_ite, Tx.wp_pure]
  intro v hv
  have hlist : ((s.put (.vaultSnapshot id e.timestamp)
      ⟨v, e.timestamp, e.sha256 (e.toXdr v)⟩).get (.vaultSnapshotTimestamps id)).getD [] =
      s.snapshotTimes id := by
    simp [State.snapshotTimes]
  rw [hlist]
  refine ⟨fun hfull => ?_, fun hroom => ?_⟩
  · rw [List.length_append, List.length_singleton] at hfull
    cases htimes : s.snapshotTimes id with
    | nil => simp [htimes, maxSnapshots] at hfull
    | cons oldest rest =>
        simp only [List.cons_append, List.head?_cons, List.tail_cons, Tx.wp_ifSome, wp_storageRemove]
        have hlong : maxSnapshots ≤ (s.snapshotTimes id).length := by omega
        refine ⟨fun o ho => ?_, by simp⟩
        obtain rfl := Option.some.inj ho
        refine ⟨by simp, .inr ⟨oldest, rest, htimes, hlong, by simp [State.snapshotTimes], v, ?_⟩⟩
        intro time
        rw [State.get_put_of_ne (by simp)]
        by_cases holdest : time = oldest
        · subst holdest
          simp
        · rw [State.get_erase_of_ne (by simpa using holdest), if_neg holdest]
          exact get_put_snapshot
  · rw [List.length_append, List.length_singleton] at hroom
    refine ⟨by simp, .inl ⟨by omega, by simp [State.snapshotTimes], v, fun time => ?_⟩⟩
    rw [State.get_put_of_ne (by simp)]
    exact get_put_snapshot

/-- Taking a snapshot loses none that is listed, if and only if what it drops is listed
once. -/
theorem Snaps.listed_iff (h : Snaps id e s t) (hlisted : Listed ks s id) :
    Listed (.call e (.vault (.createVaultSnapshot id)) :: ks) t id ↔
      DropsOne s e (.vault (.createVaultSnapshot id)) := by
  have hlater : ∀ {snapshot : VaultSnapshot}, Hashed ks id snapshot →
      Hashed (.call e (.vault (.createVaultSnapshot id)) :: ks) id snapshot :=
    fun ⟨e', hmem, hhash⟩ => ⟨e', .tail _ hmem, hhash⟩
  obtain ⟨hroom, htimes, v, hget⟩ | ⟨oldest, rest, hfirst, hfull, htimes, v, hget⟩ := h.list
  · refine iff_of_true ⟨by simp [htimes]; omega, fun time htime => ?_⟩
      fun _ _ _ hfull => absurd hroom (by omega)
    rw [hget]
    split
    · exact ⟨_, rfl, e, .head _, rfl⟩
    · next hne =>
        rw [htimes, List.mem_append, List.mem_singleton] at htime
        obtain ⟨snapshot, hsnapshot, hhashed⟩ := hlisted.stored time (htime.resolve_right hne)
        exact ⟨snapshot, hsnapshot, hlater hhashed⟩
  · have hlength := hlisted.bounded
    rw [hfirst] at hlength
    constructor
    · intro hkept oldest' rest' hfirst' _
      obtain ⟨rfl, rfl⟩ : oldest = oldest' ∧ rest = rest' := by simpa [hfirst] using hfirst'
      -- the dropped time has no snapshot any more, so it may not be listed
      have hgone : oldest ∉ t.snapshotTimes id := by
        intro hmem
        obtain ⟨snapshot, hsnapshot, -⟩ := hkept.stored oldest hmem
        rw [hget, if_pos rfl] at hsnapshot
        cases hsnapshot
      simpa [htimes] using hgone
    · intro hguard
      obtain ⟨hrest, hnow⟩ := hguard oldest rest hfirst hfull
      refine ⟨by simpa [htimes] using hlength, fun time htime => ?_⟩
      rw [htimes, List.mem_append, List.mem_singleton] at htime
      have hne : time ≠ oldest := by
        rintro rfl
        exact htime.elim hrest hnow
      rw [hget, if_neg hne]
      split
      · exact ⟨_, rfl, e, .head _, rfl⟩
      · next hne =>
          obtain ⟨snapshot, hsnapshot, hhashed⟩ := hlisted.stored time
            (hfirst ▸ .tail _ (htime.resolve_right hne))
          exact ⟨snapshot, hsnapshot, hlater hhashed⟩

/-- Snapshots are written by one call. -/
theorem Call.snapshots_writer (h : .snapshots ∈ (c.footprint s).areas) :
    ∃ id, c = .vault (.createVaultSnapshot id) := by
  cases c with
  | vault c => cases c <;> simp [Call.footprint, VaultCall.footprint, State.creation] at h ⊢
  | _ => simpa [Call.areas] using Call.mem_areas h

theorem Listed.later {k : Event} (h : Listed ks s id) (hsame : ∀ k : DataKey,
    k.area = .snapshots → k.vaultId? = some id → t.get k = s.get k) : Listed (k :: ks) t id := by
  have htimes : t.snapshotTimes id = s.snapshotTimes id := by
    simp [State.snapshotTimes, hsame (.vaultSnapshotTimestamps id) rfl rfl]
  refine ⟨htimes ▸ h.bounded, fun time htime => ?_⟩
  obtain ⟨snapshot, hsnapshot, e, hmem, hhash⟩ := h.stored time (htimes ▸ htime)
  exact ⟨snapshot, (hsame (.vaultSnapshot id time) rfl rfl).trans hsnapshot, e, .tail _ hmem, hhash⟩

theorem snaps_of_exec (hexec : exec (.vault (.createVaultSnapshot id)) e s = .ok ((), t)) :
    Snaps id e s t := by
  obtain ⟨hash, hsnap⟩ : ∃ hash, createVaultSnapshot id e s = .ok (hash, t) := by
    simpa [exec, execVault] using hexec
  exact createVaultSnapshot_spec _ _ hsnap

/-- One call that drops nothing that is still listed keeps the listed snapshots. -/
theorem listed_call (hnum : s.Numbered) (h : Listed ks s id) (hguard : DropsOne s e c)
    (hexec : exec c e s = .ok ((), t)) : Listed (.call e c :: ks) t id := by
  have hframe : Frame (c.footprint s) s t := exec_frame c hnum _ _ hexec
  by_cases hin : .snapshots ∈ (c.footprint s).areas ∧ id ∈ (c.footprint s).vaults
  · obtain ⟨i, rfl⟩ := Call.snapshots_writer hin.1
    obtain rfl : id = i := by simpa [Call.footprint, VaultCall.footprint] using hin.2
    exact ((snaps_of_exec hexec).listed_iff h).mpr hguard
  · refine h.later fun k harea hvault => ?_
    obtain hno | hno := not_and_or.mp hin
    · exact hframe.get_of_area (by simpa [harea] using hno)
    · exact hframe.get_of_vault hvault hno

end Snapshots

/-- In every run in which no snapshot drops a time that is still listed: the list of a vault has
at most `maxSnapshots` entries, and for each of them there is a snapshot that
`get_vault_snapshot` returns and whose hash is that of its vault. -/
theorem listed_snapshots_exist {w₀ w : World} {ks : List Event} (h₀ : Genesis w₀)
    (hrun : Run (Guarded Step (OnCalls DropsOne)) w₀ ks w) (id : Nat) :
    (w.state.snapshotTimes id).length ≤ maxSnapshots ∧
      ∀ time ∈ w.state.snapshotTimes id, ∃ snapshot,
        w.state.get (.vaultSnapshot id time) = some snapshot ∧
        (∀ e, getVaultSnapshot id time e w.state = .ok (snapshot.vault, w.state)) ∧
        Hashed ks id snapshot := by
  have hlisted : Listed ks w.state id := by
    refine history_of_calls (I := fun ks w => Listed ks w.state id) h₀ hrun ?_
      (fun hnum hI hguard _ hexec => listed_call hnum hI hguard hexec)
      fun l hI => hI.later fun _ _ _ => rfl
    have hnone : w₀.state.snapshotTimes id = [] := by
      simp [State.snapshotTimes, h₀.get (k := .vaultSnapshotTimestamps id) (by simp)]
    exact ⟨by simp [hnone], by simp [hnone]⟩
  refine ⟨hlisted.bounded, fun time htime => ?_⟩
  obtain ⟨snapshot, hsnapshot, hhashed⟩ := hlisted.stored time htime
  exact ⟨snapshot, hsnapshot, by simp [getVaultSnapshot, hsnapshot], hhashed⟩

/-! ## Full lists -/

section Fill

variable {e : Env} {id : Nat} {v : Vault} {w : World}

theorem snapshot_step (hv : w.state.vault id = some v) (hclock : w.clock ≤ e.timestamp) :
    ∃ w', Step w (.call e (.vault (.createVaultSnapshot id))) w' ∧ w'.clock = e.timestamp ∧
      Snaps id e w.state w'.state := by
  obtain ⟨t, hexec⟩ : ∃ t, exec (.vault (.createVaultSnapshot id)) e w.state = .ok ((), t) := by
    cases hexec : exec (.vault (.createVaultSnapshot id)) e w.state with
    | ok r => exact ⟨r.2, rfl⟩
    | error failure =>
        simp [exec, execVault, createVaultSnapshot, loadVault, hv] at hexec
  exact ⟨⟨t, e.timestamp⟩, .call hclock hexec, rfl, snaps_of_exec hexec⟩

/-- Snapshots taken one after the other fill the list with their times, as long as there is
room. -/
theorem snapshots_fill {f : Nat → Env} (hf : Monotone fun i => (f i).timestamp) (n : Nat)
    (hv : w.state.vault id = some v) (hclock : w.clock ≤ (f 0).timestamp)
    (hroom : (w.state.snapshotTimes id).length + n ≤ maxSnapshots) :
    ∃ ks w', Run (Guarded Step (OnCalls DropsOne)) w ks w' ∧ w'.clock ≤ (f n).timestamp ∧
      w'.state.vault id = some v ∧ w'.state.snapshotTimes id =
        w.state.snapshotTimes id ++ (List.range n).map fun i => (f i).timestamp := by
  induction n with
  | zero => exact ⟨[], w, .start, hclock, hv, by simp⟩
  | succ n ih =>
      obtain ⟨ks, w₁, hrun, hclock₁, hv₁, htimes₁⟩ := ih (by omega)
      obtain ⟨w₂, hstep, hclock₂, hsnaps⟩ := snapshot_step hv₁ hclock₁
      have hlength : (w₁.state.snapshotTimes id).length = (w.state.snapshotTimes id).length + n := by
        simp [htimes₁]
      obtain ⟨-, htimes₂, -⟩ | ⟨_, _, -, hfull, -⟩ := hsnaps.list
      · refine ⟨_, w₂, hrun.next ⟨hstep, fun _ _ _ hfull => ?_⟩, ?_, hsnaps.vault.trans hv₁, ?_⟩
        · omega
        · exact hclock₂.trans_le (hf (Nat.le_succ n))
        · rw [htimes₂, htimes₁, List.range_succ, List.map_append, List.append_assoc]
          rfl
      · omega

end Fill

/-- One snapshot more than there is room for, each of its own time: the list is full, and the
first of them is dropped. -/
theorem listed_snapshots_exist_full : ∃ w : World, Reachable w ∧
    w.state.snapshotTimes 1 = (List.range maxSnapshots).map (· + 1) ∧
      w.state.get (.vaultSnapshot 1 0) = none ∧
      ∃ snapshot, w.state.get (.vaultSnapshot 1 1) = some snapshot := by
  have hplay : (play (initialised ⟨8⟩ ⟨9⟩)
      [opensVault 100]).any (fun w =>
      (w.state.vault 1).any fun _ =>
        decide (w.state.snapshotTimes 1 = []) && decide (w.clock = 0)) = true := by
    decide +kernel
  obtain ⟨w, hw, hchecks⟩ := (Option.any_eq_true _ _).mp hplay
  simp only [Bool.and_eq_true, Option.any_eq_true, decide_eq_true_eq] at hchecks
  obtain ⟨v, hv, hnone, hclock⟩ := hchecks
  obtain ⟨n, hn⟩ : ∃ n, n + 1 = maxSnapshots := ⟨999, rfl⟩
  obtain ⟨ks, w₁, hfill, hclock₁, hv₁, hfull⟩ := snapshots_fill (f := signedBy [])
    (fun _ _ hle => min_le_min_right _ hle) (n + 1) hv (hclock.le.trans (Nat.zero_le _))
    (by simp [hnone, hn])
  obtain ⟨w₂, hstep, -, hsnaps⟩ := snapshot_step hv₁ hclock₁
  have htimestamp : ∀ i ≤ n + 1, (signedBy [] i).timestamp = i :=
    fun i hi => min_eq_left ((hi.trans hn.le).trans (by decide))
  have htimes₁ : w₁.state.snapshotTimes 1 = 0 :: (List.range n).map (· + 1) := by
    rw [hfull, hnone, List.map_congr_left (g := id)
      fun i hi => htimestamp i (List.mem_range.mp hi).le, List.map_id, List.range_succ_eq_map]
    rfl
  have hdrops : DropsOne w₁.state (signedBy [] (n + 1)) (.vault (.createVaultSnapshot 1)) := by
    intro oldest rest hcons _
    obtain ⟨rfl, rfl⟩ : 0 = oldest ∧ (List.range n).map (· + 1) = rest := by
      simpa using htimes₁.symm.trans hcons
    exact ⟨by simp, by simp [htimestamp]⟩
  have h₀ : Genesis (initialised ⟨8⟩ ⟨9⟩) := genesis_initialised (by decide) (by decide)
  have hrun := ((guarded_of_play (P := DropsOne) (by simp [DropsOne]) hw).trans hfill).next
    ⟨hstep, hdrops⟩
  obtain ⟨hroom, -⟩ | ⟨oldest, rest, hcons, -, htimes, _, hget⟩ := hsnaps.list
  · simp [htimes₁, hn] at hroom
  · obtain ⟨rfl, rfl⟩ : 0 = oldest ∧ (List.range n).map (· + 1) = rest := by
      simpa using htimes₁.symm.trans hcons
    have hall : w₂.state.snapshotTimes 1 = (List.range maxSnapshots).map (· + 1) := by
      rw [htimes, ← hn, List.range_succ, List.map_append, htimestamp _ le_rfl]
      rfl
    obtain ⟨snapshot, hsnapshot, -⟩ := (listed_snapshots_exist h₀ hrun 1).2 1
      (hall ▸ List.mem_map_of_mem (List.mem_range.mpr (by decide)))
    exact ⟨w₂, ⟨_, _, h₀, hrun.unguard⟩, hall, (hget 0).trans (if_pos rfl), snapshot, hsnapshot⟩

/-! ## Losing a listed snapshot -/

/-- Two snapshots are taken in the first ledger and so many later that the list overflows: the
first time is still listed, its snapshot is gone. -/
theorem listed_snapshot_lost : ¬ ∀ (w : World) (id : Nat), Reachable w →
    ∀ time ∈ w.state.snapshotTimes id, ∃ snapshot,
      w.state.get (.vaultSnapshot id time) = some snapshot := by
  have hplay : (play (initialised ⟨8⟩ ⟨9⟩)
      [opensVault 100,
        (signedBy [] 0, .vault (.createVaultSnapshot 1)),
        (signedBy [] 0, .vault (.createVaultSnapshot 1))]).any (fun w =>
      (w.state.vault 1).any fun _ =>
        decide (w.state.snapshotTimes 1 = [0, 0]) && decide (w.clock = 0)) = true := by
    decide +kernel
  obtain ⟨w, hw, hchecks⟩ := (Option.any_eq_true _ _).mp hplay
  simp only [Bool.and_eq_true, Option.any_eq_true, decide_eq_true_eq] at hchecks
  obtain ⟨v, hv, htwo, hclock⟩ := hchecks
  obtain ⟨n, hn⟩ : ∃ n, n + 2 = maxSnapshots := ⟨998, rfl⟩
  obtain ⟨ks, w₁, hrun, hclock₁, hv₁, hfull⟩ := snapshots_fill (f := fun _ => signedBy [] 1)
    monotone_const n hv
    (by simp [hclock]) (by simp [htwo]; omega)
  obtain ⟨w₂, hstep, -, hsnaps⟩ := snapshot_step hv₁ hclock₁
  intro h
  rw [htwo] at hfull
  obtain ⟨hroom, -⟩ | ⟨oldest, rest, hfirst, -, htimes, _, hget⟩ := hsnaps.list
  · simp [hfull] at hroom
    omega
  · obtain ⟨rfl, hrest⟩ : 0 = oldest ∧
      0 :: (List.range n).map (fun _ => (signedBy [] 1).timestamp) = rest := by
      simpa using hfull.symm.trans hfirst
    have hreach : Reachable w₂ := ⟨_, _, genesis_initialised (by decide) (by decide),
      (run_of_play hw).trans (hrun.unguard.next hstep)⟩
    obtain ⟨snapshot, hsnapshot⟩ := h w₂ 1 hreach 0 (by simp [htimes, ← hrest])
    rw [hget, if_pos rfl] at hsnapshot
    cases hsnapshot

end Heirloom
