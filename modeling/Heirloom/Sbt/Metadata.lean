import Heirloom.Sbt.Codec
import Heirloom.Sbt.System

/-!
# What a token says

Metadata that becomes shorter is read back. Metadata that does not is kept as it is,
and then its own first bytes decide how it is read: it is read back if they are
those of neither format (`Plain`), and otherwise it is taken for what it is not. No
legacy stream and no broken extension is read back as itself; an extension could be
only if its blocks happen to spell out the extension (`SelfFramed`).

* `decompress_compress`: when the compression functions give back what they were given.
* `compression_faithful`: that, and the same for a token over every run of the contract.
-/

namespace Heirloom.Sbt

open Transaction TypedStore Runs

/-! ## Streams of the legacy format -/

section Legacy

variable {metadata : Bytes} {mode : UInt8}

theorem pushAll_output {values : Bytes} {d d' : Decoder} (h : pushAll mode values d = .ok d') :
    d'.output = d.output ++ restored mode d.previous values := by
  induction values generalizing d with
  | nil =>
      obtain rfl : d = d' := Except.ok.inj h
      simp [restored]
  | cons v values ih =>
      simp only [pushAll, pushDecoded, bind, Except.bind] at h
      split at h
      case h_1 => cases h
      case h_2 d₁ hd₁ =>
        split at hd₁
        case isTrue => cases hd₁
        case isFalse =>
          obtain rfl := Except.ok.inj hd₁
          rw [ih h]
          simp [restored]

theorem restored_direct {previous : UInt8} {values : Bytes} :
    restored modeDirect previous values = values := by
  have hdirect : ¬ modeDirect = modeDelta := by decide
  induction values generalizing previous with
  | nil => rfl
  | cons v values ih => simp [restored, hdirect, ih]

/-- Counts and values, as the legacy format writes them. -/
def flatPairs (pairs : List (UInt8 × UInt8)) : Bytes := pairs.flatMap fun p => [p.1, p.2]

/-- What the pairs stand for. -/
def spelledPairs (pairs : List (UInt8 × UInt8)) : Bytes :=
  pairs.flatMap fun p => List.replicate p.1.toNat p.2

/-- A stream that the legacy loop reads to its end is one of pairs whose count is not
zero. -/
theorem legacyFrom_pairs (fuel index : Nat) {d d' : Decoder} (hindex : index ≤ metadata.length)
    (hfuel : metadata.length - index ≤ fuel) (h : legacyFrom metadata fuel index d = .ok d') :
    ∃ pairs, (∀ p ∈ pairs, p.1 ≠ 0) ∧ metadata.drop index = flatPairs pairs ∧
      d'.output = d.output ++ spelledPairs pairs := by
  induction fuel generalizing index d with
  | zero =>
      obtain rfl : d = d' := Except.ok.inj h
      exact ⟨[], by simp, by simp [flatPairs]; omega, by simp [spelledPairs]⟩
  | succ fuel ih =>
      simp only [legacyFrom] at h
      split at h
      case isFalse =>
        obtain rfl : d = d' := Except.ok.inj h
        exact ⟨[], by simp, by simp [flatPairs]; omega, by simp [spelledPairs]⟩
      case isTrue hin =>
        split at h
        case isTrue => cases h
        case isFalse hpair =>
          split at h
          case isTrue => cases h
          case isFalse hcount =>
            simp only [bind, Except.bind] at h
            split at h
            case h_1 => cases h
            case h_2 d₁ hd₁ =>
              obtain ⟨pairs, hpos, hdrop, hout⟩ := ih (index + 2) (by omega) (by omega) h
              refine ⟨(byteAt metadata index, byteAt metadata (index + 1)) :: pairs, ?_, ?_, ?_⟩
              · simpa using ⟨hcount, fun a b hab => hpos (a, b) hab⟩
              · have hfirst : byteAt metadata index = metadata[index] := by
                  simp [byteAt, List.getElem?_eq_getElem hin]
                have hnext : index + 1 < metadata.length := by omega
                have hsecond : byteAt metadata (index + 1) = metadata[index + 1] := by
                  simp [byteAt, List.getElem?_eq_getElem hnext]
                rw [List.drop_eq_getElem_cons hin, List.drop_eq_getElem_cons hnext, hdrop, hfirst,
                  hsecond]
                simp [flatPairs]
              · rw [hout, pushAll_output hd₁, restored_direct]
                simp [spelledPairs]

/-- No two zeros stand next to each other. -/
def Isolated (bytes : Bytes) : Prop := List.IsChain (fun a b => a ≠ 0 ∨ b ≠ 0) bytes

theorem isolated_flatPairs {pairs : List (UInt8 × UInt8)} (h : ∀ p ∈ pairs, p.1 ≠ 0)
    (b : UInt8) : Isolated (b :: flatPairs pairs) := by
  induction pairs generalizing b with
  | nil => exact List.IsChain.singleton b
  | cons p pairs ih =>
      have hp : p.1 ≠ 0 := h p List.mem_cons_self
      have hrest := ih (fun q hq => h q (List.mem_cons_of_mem p hq)) p.2
      exact List.isChain_cons_cons.mpr ⟨.inr hp, List.isChain_cons_cons.mpr ⟨.inl hp, hrest⟩⟩

theorem count_flatPairs {pairs : List (UInt8 × UInt8)} (h : ∀ p ∈ pairs, p.1 ≠ 0) :
    (flatPairs pairs).count 0 = pairs.countP (·.2 = 0) := by
  induction pairs with
  | nil => rfl
  | cons p pairs ih =>
      have hp : p.1 ≠ 0 := h p List.mem_cons_self
      have hrest := ih fun q hq => h q (List.mem_cons_of_mem p hq)
      simp only [flatPairs, List.flatMap_cons, List.count_append, List.countP_cons] at hrest ⊢
      rw [hrest]
      by_cases hz : p.2 = 0 <;> simp [hp, hz, Nat.add_comm]

/-- Where zeros are isolated a pair stands for at most one of them. -/
theorem count_spelledPairs {pairs : List (UInt8 × UInt8)} (h : Isolated (spelledPairs pairs)) :
    (spelledPairs pairs).count 0 ≤ pairs.countP (·.2 = 0) := by
  induction pairs with
  | nil => simp [spelledPairs]
  | cons p pairs ih =>
      simp only [spelledPairs, List.flatMap_cons, Isolated, List.isChain_append] at h ih ⊢
      obtain ⟨hown, hrest, -⟩ := h
      have hih := ih hrest
      rw [List.count_append, List.countP_cons]
      by_cases hz : p.2 = 0
      · have hone : p.1.toNat ≤ 1 := by
          by_contra hmany
          obtain ⟨n, hn⟩ : ∃ n, p.1.toNat = n + 2 := ⟨p.1.toNat - 2, by omega⟩
          rw [hn, List.replicate_succ, List.replicate_succ, hz] at hown
          exact (List.isChain_cons_cons.mp hown).1.elim (· rfl) (· rfl)
        simp only [hz, List.count_replicate_self, decide_true, if_true]
        omega
      · simp only [List.count_replicate, hz, beq_iff_eq, if_false, decide_false,
          Bool.false_eq_true]
        omega

/-- The runs of a stream do not spell out its mode: it holds one zero more than they
do. -/
theorem legacy_runs_not_self {rest : Bytes} :
    decompressLegacy (legacyMagic :: modeDirect :: rest) ≠
      .ok (legacyMagic :: modeDirect :: rest) := by
  intro hself
  have hruns : decompressLegacy (legacyMagic :: modeDirect :: rest) =
      (legacyFrom (legacyMagic :: modeDirect :: rest) (rest.length + 2) 2 .fresh >>=
        fun d => pure d.output) := rfl
  rw [hruns] at hself
  cases hd : legacyFrom (legacyMagic :: modeDirect :: rest) (rest.length + 2) 2 .fresh with
  | error err => simp [hd, bind, Except.bind] at hself
  | ok d =>
      obtain ⟨pairs, hpos, hdrop, hout⟩ := legacyFrom_pairs _ 2 (by simp) (by simp) hd
      have hread : d.output = legacyMagic :: modeDirect :: rest := by
        simpa [hd, bind, Except.bind, pure, Except.pure] using hself
      have heq : spelledPairs pairs = legacyMagic :: modeDirect :: flatPairs pairs := by
        simp only [List.drop_succ_cons, List.drop_zero] at hdrop
        rw [← hdrop, ← hread, hout]
        simp [Decoder.fresh]
      have hmagic : legacyMagic ≠ 0 := by decide
      have hisolated : Isolated (spelledPairs pairs) := by
        rw [heq]
        exact List.isChain_cons_cons.mpr ⟨.inl hmagic, isolated_flatPairs hpos _⟩
      have hle := count_spelledPairs hisolated
      rw [heq, ← count_flatPairs hpos] at hle
      simp [hmagic, modeDirect] at hle

/-- Delta bytes stand for as many bytes as there are after the header. -/
theorem legacy_delta_not_self {rest : Bytes} :
    decompressLegacy (legacyMagic :: modeDelta :: rest) ≠
      .ok (legacyMagic :: modeDelta :: rest) := by
  intro hself
  have hdelta : decompressLegacy (legacyMagic :: modeDelta :: rest) =
      (pushAll modeDelta rest .fresh >>= fun d => pure d.output) := rfl
  rw [hdelta] at hself
  cases hd : pushAll modeDelta rest .fresh with
  | error err => simp [hd, bind, Except.bind] at hself
  | ok d =>
      have hread : d.output = legacyMagic :: modeDelta :: rest := by
        simpa [hd, bind, Except.bind, pure, Except.pure] using hself
      have hout := congrArg List.length (pushAll_output hd)
      rw [hread] at hout
      simp [Decoder.fresh] at hout
      omega

/-- No legacy stream stands for itself. -/
theorem legacy_not_self (h : isLegacyCompressed metadata = true) :
    decompressLegacy metadata ≠ .ok metadata := by
  simp only [isLegacyCompressed, Bool.and_eq_true, decide_eq_true_eq, beq_iff_eq,
    Bool.or_eq_true] at h
  obtain ⟨⟨hlength, hmagic⟩, hmode⟩ := h
  obtain ⟨a, b, rest, rfl⟩ : ∃ a b rest, metadata = a :: b :: rest := by
    match metadata, hlength with
    | a :: b :: rest, _ => exact ⟨a, b, rest, rfl⟩
  simp only [byteAt_cons_zero, byteAt_cons_succ] at hmagic hmode
  subst hmagic
  obtain rfl | rfl := hmode
  · exact legacy_runs_not_self
  · exact legacy_delta_not_self

end Legacy

/-! ## The compression functions -/

section Functions

variable {m : Bytes}

/-- The frame of the metadata is shorter than the metadata. -/
def Shrinks (m : Bytes) : Prop := (framedMetadata m).length < m.length

/-- The first bytes are those of neither compressed format. -/
def Plain (m : Bytes) : Prop :=
  parseMessagepackHeader m = .ok none ∧ isLegacyCompressed m = false

/-- An extension whose blocks stand for the whole extension. -/
def SelfFramed (m : Bytes) : Prop :=
  ∃ start stop mode, parseMessagepackHeader m = .ok (some (start, stop, mode)) ∧
    decodeBlocks m start stop mode = .ok m

theorem compressMetadata_of_shrinks (hsize : m.length ≤ maxMetadataSize) (h : Shrinks m) :
    compressMetadata m = framedMetadata m := by
  have hpos : m ≠ [] := by
    rintro rfl
    exact absurd h (Nat.not_lt_zero _)
  have hfits : ¬ (m = [] ∨ maxMetadataSize < m.length) := by
    rintro (hempty | hlarge)
    · exact hpos hempty
    · omega
  simp only [compressMetadata, if_neg hfits]
  exact if_pos h

theorem compressMetadata_of_not_shrinks (h : ¬ Shrinks m) : compressMetadata m = m := by
  simp only [compressMetadata]
  split
  · rfl
  · exact if_neg h

/-- Bytes are read as they are if they look like nothing else, and otherwise only if
they are an extension that spells itself out. -/
theorem decompressMetadata_self_iff :
    decompressMetadata m = .ok m ↔ Plain m ∨ SelfFramed m := by
  simp only [decompressMetadata, Plain, SelfFramed]
  cases hparse : parseMessagepackHeader m with
  | error err => simp
  | ok found =>
      cases found with
      | none =>
          cases hlegacy : isLegacyCompressed m with
          | false => simp
          | true => simpa using legacy_not_self hlegacy
      | some range =>
          obtain ⟨start, stop, mode⟩ := range
          simp

/-- When the compression functions give back what they were given. -/
theorem decompress_compress (hsize : m.length ≤ maxMetadataSize) :
    decompressMetadata (compressMetadata m) = .ok m ↔ Shrinks m ∨ Plain m ∨ SelfFramed m := by
  by_cases h : Shrinks m
  · rw [compressMetadata_of_shrinks hsize h]
    exact ⟨fun _ => .inl h, fun _ => (decompressMetadata_framed hsize).1⟩
  · rw [compressMetadata_of_not_shrinks h, decompressMetadata_self_iff]
    exact ⟨.inr, fun hm => hm.resolve_left h⟩

end Functions

/-! ## Tokens -/

section Tokens

variable {e : Env} {s t u : State} {m : Bytes} {id : Nat} {recipient : Address}

/-- Compressing leaves everything as it is, or replaces the string of a token that is
not flagged by bytes that look compressed. -/
theorem compressSbtMetadata_ok {n : Nat} (h : compressSbtMetadata id e s = .ok (n, t)) :
    s.get (.owner id) ≠ none ∧
      (t = s ∨ ∃ text, s.get (.metadata id) = some (.string text) ∧
        (s.get (.metadataCompressed id)).getD false = false ∧
        isCompressed (compressMetadata text) = true ∧
        t = (s.put (.metadata id) (.bytes (compressMetadata text))).put
          (.metadataCompressed id) true) := by
  simp only [compressSbtMetadata, requireOwner, loadOwner, stringToBytes, Tx.ok_bind, Tx.ok_ite,
    ok_load, ok_save, ok_requireAuth, Tx.ok_fromSome, Tx.ok_pure, ok_isSbtMetadataCompressed,
    ok_loadString, ok_copyMetadata] at h
  obtain ⟨_, _, ⟨owner, _, ⟨_, _, ⟨hload, rfl⟩, howner, rfl⟩, _, _, ⟨_, rfl⟩, _, rfl⟩, flag, _,
    ⟨hflag, rfl⟩, h⟩ := h
  refine ⟨by rw [hload, howner]; exact Option.some_ne_none _, ?_⟩
  obtain ⟨_, _, rfl⟩ | ⟨hoff, text, _, ⟨htext, rfl⟩, _, _, ⟨_, rfl, rfl⟩, h⟩ := h
  · exact .inl rfl
  · obtain ⟨_, _, rfl⟩ | ⟨hcompressed, _, _, rfl, _, _, rfl, _, rfl⟩ := h
    · exact .inl rfl
    · refine .inr ⟨text, htext, ?_, by simpa using hcompressed, rfl⟩
      rw [hflag]
      simpa using hoff

/-- Tokens are numbered in order, from the one initialisation on, and only tokens are
flagged. -/
structure Numbered (s : State) : Prop where
  initialised : s.get .admin = none → ∀ id, s.get (.owner id) = none
  minted : ∀ id, (s.get .nextTokenId).getD 0 ≤ id → s.get (.owner id) = none
  flagged : ∀ id, s.get (.metadataCompressed id) ≠ none → s.get (.owner id) ≠ none

/-- A step that neither initialises nor mints nor compresses. -/
theorem Numbered.kept (hs : Numbered s) (hadmin : t.get .admin = s.get .admin)
    (hnext : t.get .nextTokenId = s.get .nextTokenId)
    (howner : ∀ id, t.get (.owner id) = none ↔ s.get (.owner id) = none)
    (hflag : ∀ id, t.get (.metadataCompressed id) = s.get (.metadataCompressed id)) :
    Numbered t := by
  refine ⟨fun hnone id => ?_, fun id hle => ?_, fun id => ?_⟩
  · rw [howner]
    exact hs.initialised (hadmin ▸ hnone) id
  · rw [howner]
    exact hs.minted id (hnext ▸ hle)
  · rw [hflag, Ne, Ne, howner]
    exact hs.flagged id

theorem Numbered.step {k : Env × Call} (hs : Numbered s) (h : Step s k t) : Numbered t := by
  obtain ⟨e, c⟩ := k
  cases c with
  | initializeContract admin =>
      obtain ⟨hnone, rfl⟩ := initializeContract_ok h
      have howner := hs.initialised hnone
      exact ⟨by simp, by simpa using howner, by simpa using hs.flagged⟩
  | mint recipient m =>
      obtain ⟨id, u, hmint, hu⟩ := Tx.ok_bind.mp h
      obtain ⟨-, rfl⟩ := Tx.ok_pure.mp hu
      obtain ⟨hadmin, hid, rfl⟩ := mint_ok hmint
      unfold withToken
      refine ⟨by simpa using fun h => absurd h hadmin, fun id' hle => ?_, fun id' hflag => ?_⟩
      · have hlt : id + 1 ≤ id' := by
          simpa only [ne_eq, reduceCtorEq, not_false_eq_true, Store.get_put_of_ne,
            Store.get_put_self, Option.getD_some] using hle
        have hne : id' ≠ id := Nat.ne_of_gt hlt
        simpa [hne] using hs.minted id' (hid ▸ Nat.le_of_succ_le hlt)
      · by_cases heq : id' = id
        · subst heq
          simp
        · simpa [heq] using hs.flagged id' (by simpa using hflag)
  | compressSbtMetadata id =>
      obtain ⟨n, u, hcompress, hu⟩ := Tx.ok_bind.mp h
      obtain ⟨-, rfl⟩ := Tx.ok_pure.mp hu
      obtain ⟨howner, rfl | ⟨text, -, -, -, rfl⟩⟩ := compressSbtMetadata_ok hcompress
      · exact hs
      · refine ⟨by simpa using hs.initialised, by simpa using hs.minted, fun id' hflag => ?_⟩
        by_cases heq : id' = id
        · subst heq
          simpa using howner
        · simpa using hs.flagged id' (by simpa [heq] using hflag)
  | _ =>
      refine hs.kept (h.get_eq (by simp [Call.areas])) (h.get_eq (by simp [Call.areas]))
        (fun id => h.owner_none_iff id (by simp)) fun id => h.get_eq (by simp [Call.areas])

theorem Reachable.numbered (h : Reachable s) : Numbered s := by
  obtain ⟨ks, hrun⟩ := h
  refine hrun.invariant ?_ fun _ _ _ => Numbered.step
  exact ⟨by simp, by simp, by simp⟩

/-- The token `id` has been minted with `m`, and its metadata is kept as the string or,
flagged, as what the string compresses to. -/
structure Holds (m : Bytes) (id : Nat) (s : State) : Prop where
  minted : s.get (.owner id) ≠ none
  stored : (s.get (.metadataCompressed id)).getD false = false ∧
      s.get (.metadata id) = some (.string m) ∨
    (s.get (.metadataCompressed id)).getD false = true ∧
      s.get (.metadata id) = some (.bytes (compressMetadata m)) ∧
      isCompressed (compressMetadata m) = true

theorem Holds.of_mint (hs : Numbered s) (h : mint recipient m e s = .ok (id, t)) : Holds m id t := by
  obtain ⟨-, hid, rfl⟩ := mint_ok h
  unfold withToken
  refine ⟨by simp, .inl ⟨?_, by simp⟩⟩
  have hnone : s.get (.metadataCompressed id) = none := by
    by_contra hflag
    exact hs.flagged id hflag (hs.minted id hid.ge)
  simp [hnone]

theorem Holds.step {k : Env × Call} (hs : Numbered s) (hm : Holds m id s) (h : Step s k t) :
    Holds m id t := by
  obtain ⟨e, c⟩ := k
  cases c with
  | initializeContract admin =>
      exact absurd (hs.initialised (initializeContract_ok h).1 id) hm.minted
  | mint recipient m' =>
      obtain ⟨id', u, hmint, hu⟩ := Tx.ok_bind.mp h
      obtain ⟨-, rfl⟩ := Tx.ok_pure.mp hu
      obtain ⟨-, hid, rfl⟩ := mint_ok hmint
      have hne : id ≠ id' := fun heq => hm.minted (hs.minted id (by rw [heq, hid]))
      unfold withToken
      exact ⟨by simpa [hne] using hm.minted, by simpa [hne] using hm.stored⟩
  | compressSbtMetadata id' =>
      obtain ⟨n, u, hcompress, hu⟩ := Tx.ok_bind.mp h
      obtain ⟨-, rfl⟩ := Tx.ok_pure.mp hu
      obtain ⟨-, rfl | ⟨text, htext, hoff, hcompressed, rfl⟩⟩ := compressSbtMetadata_ok hcompress
      · exact hm
      · by_cases heq : id = id'
        · subst heq
          obtain ⟨-, hstring⟩ | ⟨hon, -⟩ := hm.stored
          · obtain rfl : m = text := by simpa [hstring] using htext
            exact ⟨by simpa using hm.minted, .inr ⟨by simp, by simp, hcompressed⟩⟩
          · rw [hoff] at hon
            exact absurd hon Bool.false_ne_true
        · exact ⟨by simpa using hm.minted, by simpa [heq] using hm.stored⟩
  | _ =>
      refine ⟨fun hnone => hm.minted ((h.owner_none_iff id (by simp)).mp hnone), ?_⟩
      rw [h.get_eq (k := .metadataCompressed id) (by simp [Call.areas]),
        h.get_eq (k := .metadata id) (by simp [Call.areas])]
      exact hm.stored

theorem Holds.run {ks : List (Env × Call)} (hs : Numbered s) (hm : Holds m id s)
    (h : Run Step s ks t) : Holds m id t := by
  have hboth : Numbered t ∧ Holds m id t :=
    h.invariant (I := fun s => Numbered s ∧ Holds m id s) ⟨hs, hm⟩
      fun _ _ _ hboth hk => ⟨hboth.1.step hk, hboth.2.step hboth.1 hk⟩
  exact hboth.2

/-- What the readers return from a token. -/
theorem Holds.getMetadata_iff (hm : Holds m id s) (hsize : m.length ≤ maxMetadataSize) :
    getMetadata id e s = .ok (m, s) ↔
      ((s.get (.metadataCompressed id)).getD false = true →
        decompressMetadata (compressMetadata m) = .ok m) := by
  simp only [getMetadata, bytesToString, Tx.ok_bind, Tx.ok_ite, ok_isSbtMetadataCompressed,
    ok_loadString, ok_loadBytes, ok_decompressed, ok_copyMetadata]
  obtain ⟨hoff, hstring⟩ | ⟨hon, hbytes, -⟩ := hm.stored
  · simp [hoff, hstring]
  · simp [hon, hbytes, hsize]

theorem Holds.decompressSbtMetadata_iff (hm : Holds m id s) (hsize : m.length ≤ maxMetadataSize) :
    decompressSbtMetadata id e s = .ok (m, s) ↔
      ((s.get (.metadataCompressed id)).getD false = true →
        decompressMetadata (compressMetadata m) = .ok m) := by
  simp only [decompressSbtMetadata, stringToBytes, Tx.ok_bind, Tx.ok_ite,
    ok_isSbtMetadataCompressed, ok_loadString, ok_loadBytes, ok_decompressed, ok_copyMetadata]
  obtain ⟨hoff, hstring⟩ | ⟨hon, hbytes, -⟩ := hm.stored
  · simp [hoff, hstring, hsize]
  · simp [hon, hbytes]

/-- A flagged token holds a frame, or its string looks compressed. -/
theorem Holds.shrinks_or_compressed (hm : Holds m id s)
    (hflag : (s.get (.metadataCompressed id)).getD false = true) :
    Shrinks m ∨ isCompressed m = true := by
  by_cases hshrinks : Shrinks m
  · exact .inl hshrinks
  · obtain ⟨hoff, -⟩ | ⟨-, -, hcompressed⟩ := hm.stored
    · exact absurd (hoff.symm.trans hflag) Bool.false_ne_true
    · rw [compressMetadata_of_not_shrinks hshrinks] at hcompressed
      exact .inr hcompressed

theorem Holds.of_run {ks : List (Env × Call)} (hs : Reachable s)
    (hmint : mint recipient m e s = .ok (id, t)) (h : Run Step t ks u) : Holds m id u := by
  have hstep : Step s (e, .mint recipient m) t :=
    Tx.ok_bind.mpr ⟨id, t, hmint, Tx.ok_pure.mpr ⟨rfl, rfl⟩⟩
  exact (Holds.of_mint hs.numbered hmint).run (hs.numbered.step hstep) h

/-- Metadata that shrinks, or looks like neither format, is what the functions give
back; and a token minted with it says the same, whatever is compressed after that. A
broken extension is safe on a token, where it is never flagged. Other metadata is lost,
by the functions at once and by a token as soon as it is flagged, unless it is an
extension that spells itself out. -/
theorem compression_faithful (m : Bytes) (hsize : m.length ≤ maxMetadataSize) :
    (Shrinks m ∨ Plain m → decompressMetadata (compressMetadata m) = .ok m) ∧
    (decompressMetadata (compressMetadata m) = .ok m → Shrinks m ∨ Plain m ∨ SelfFramed m) ∧
    ∀ (s t u : State) (e : Env) (recipient : Address) (id : Nat) (ks : List (Env × Call)),
      Reachable s → mint recipient m e s = .ok (id, t) → Run Step t ks u →
      (Shrinks m ∨ isCompressed m = false →
        ∀ e', getMetadata id e' u = .ok (m, u) ∧ decompressSbtMetadata id e' u = .ok (m, u)) ∧
      ((u.get (.metadataCompressed id)).getD false = true →
        ∀ e', getMetadata id e' u = .ok (m, u) ∨ decompressSbtMetadata id e' u = .ok (m, u) →
          Shrinks m ∨ isCompressed m = false ∨ SelfFramed m) := by
  refine ⟨fun hm => ?_, fun h => (decompress_compress hsize).mp h, ?_⟩
  · exact (decompress_compress hsize).mpr (hm.imp_right .inl)
  intro s t u e recipient id ks hs hmint hrun
  have hm : Holds m id u := .of_run hs hmint hrun
  constructor
  · intro hok e'
    have hread : (u.get (.metadataCompressed id)).getD false = true →
        decompressMetadata (compressMetadata m) = .ok m := by
      intro hflag
      refine (decompress_compress hsize).mpr (.inl ?_)
      obtain hshrinks | hcompressed := hm.shrinks_or_compressed hflag
      · exact hshrinks
      · exact hok.resolve_right (by simp [hcompressed])
    exact ⟨(hm.getMetadata_iff hsize).mpr hread, (hm.decompressSbtMetadata_iff hsize).mpr hread⟩
  · intro hflag e' hread
    have hback : decompressMetadata (compressMetadata m) = .ok m :=
      hread.elim (fun h => (hm.getMetadata_iff hsize).mp h hflag)
        (fun h => (hm.decompressSbtMetadata_iff hsize).mp h hflag)
    obtain hshrinks | ⟨hparse, hlegacy⟩ | hself := (decompress_compress hsize).mp hback
    · exact .inl hshrinks
    · exact .inr (.inl (by simp [isCompressed, hparse, hlegacy]))
    · exact .inr (.inr hself)

/-- The contract with one token. -/
def mintedState (m : Bytes) : State :=
  (((initialisedState.put .nextTokenId 1).put (.owner 0) ⟨9⟩).put (.metadata 0) (.string m)).put
    (.mintedAt 0) 0

/-- The contract with one token that holds compressed bytes. -/
def compressedState (m compressed : Bytes) : State :=
  ((mintedState m).put (.metadata 0) (.bytes compressed)).put (.metadataCompressed 0) true

/-- Twelve equal bytes are compressed and read back. -/
theorem compression_faithful_run :
    mint ⟨9⟩ (List.replicate 12 65) signed initialisedState =
      .ok (0, mintedState (List.replicate 12 65)) ∧
    getMetadata 0 signed
        (compressedState (List.replicate 12 65) [0xC7, 4, 0x45, 1, 0, 0x89, 65]) =
      .ok (List.replicate 12 65,
        compressedState (List.replicate 12 65) [0xC7, 4, 0x45, 1, 0, 0x89, 65]) := by
  have hmint : mint ⟨9⟩ (List.replicate 12 65) signed initialisedState =
      .ok (0, mintedState (List.replicate 12 65)) := rfl
  have hrun : Run Step (mintedState (List.replicate 12 65)) [(signed, .compressSbtMetadata 0)]
      (compressedState (List.replicate 12 65) [0xC7, 4, 0x45, 1, 0, 0x89, 65]) :=
    .next .start rfl
  have hshrinks : Shrinks (List.replicate 12 65) := by
    rw [Shrinks]
    decide
  refine ⟨hmint, ?_⟩
  exact (((compression_faithful _ (by decide)).2.2 _ _ _ _ _ _ _ reachable_initialisedState hmint
    hrun).1 (.inl hshrinks) signed).1

/-- Three bytes that cannot be packed and start as the legacy format did: they are
returned as they are, taken for delta bytes, and two of them are lost. The owner of a
token that says them changes what it says by compressing it. -/
theorem legacy_lookalike_lost :
    decompressMetadata (compressMetadata [0xC1, 1, 65]) = .ok [65] ∧
    Reachable initialisedState ∧
    mint ⟨9⟩ [0xC1, 1, 65] signed initialisedState = .ok (0, mintedState [0xC1, 1, 65]) ∧
    Run Step (mintedState [0xC1, 1, 65]) [(signed, .compressSbtMetadata 0)]
      (compressedState [0xC1, 1, 65] [0xC1, 1, 65]) ∧
    getMetadata 0 signed (compressedState [0xC1, 1, 65] [0xC1, 1, 65]) =
      .ok ([65], compressedState [0xC1, 1, 65] [0xC1, 1, 65]) ∧
    decompressSbtMetadata 0 signed (compressedState [0xC1, 1, 65] [0xC1, 1, 65]) =
      .ok ([65], compressedState [0xC1, 1, 65] [0xC1, 1, 65]) :=
  ⟨rfl, reachable_initialisedState, rfl, .next .start rfl, rfl, rfl⟩

end Tokens

end Heirloom.Sbt
