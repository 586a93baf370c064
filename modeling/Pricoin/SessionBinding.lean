import Pricoin.AdaptorJointRingSig

/-!
What a session's hashes are taken of. The challenge of an equality proof, the
commitment to a nonce share and the responses for the other ring members are hashes
of points of a fixed width, the ring and its indices, and at the end the session's
label and payload without anything between them. The hashed string determines all
of these up to the place where the label ends.
-/
namespace Pricoin.SessionBinding

open ByteStreams KeyImageFile Transactions CurveBytes RingSig AdaptorSig AdaptorJointRingSig List

structure Session where
  label : List UInt8
  payload : List UInt8
  deriving DecidableEq

namespace Session

def bytes (s : Session) : List UInt8 := s.label ++ s.payload

/-- Neither label is a proper beginning of the other. -/
def Separable (s s' : Session) : Prop :=
  s.label <+: s'.label ∨ s'.label <+: s.label → s.label = s'.label

theorem eq_of_bytes {s s' : Session} (hsep : s.Separable s') (h : s.bytes = s'.bytes) :
    s = s' := by
  have hs : s.label <+: s'.bytes := ⟨s.payload, h⟩
  have hs' : s'.label <+: s'.bytes := ⟨s'.payload, rfl⟩
  have hlabel : s.label = s'.label := hsep (List.prefix_or_prefix_of_prefix hs hs')
  have hpayload : s.payload = s'.payload := by
    rw [bytes, bytes, hlabel] at h
    exact append_cancel_left h
  obtain ⟨label, payload⟩ := s
  exact congrArg₂ Session.mk hlabel hpayload

end Session

/-- What the challenge of an equality proof is a hash of. -/
structure ChallengeInputs where
  G : Point
  Hp : Point
  TG : Point
  TH : Point
  AG : Point
  AH : Point
  session : Session
  deriving DecidableEq

/-- What the commitment to a nonce share is a hash of. -/
structure CommitInputs where
  LShare : Point
  RShare : Point
  KIShare : Point
  DShare : Point
  adaptor : AdaptorPoints
  dleqAlpha : DLEQProof
  dleqX : DLEQProof
  dleqZ : DLEQProof
  session : Session
  deriving DecidableEq

/-- What the response for another ring member is a hash of. -/
structure DecoyInputs where
  ring : List MultiLayerMember
  pi : ℕ
  i : ℕ
  KI : Point
  D : Point
  adaptor : AdaptorPoints
  session : Session
  deriving DecidableEq

section Strings

/-- The strings that are hashed one after the other until a hash is a valid key. -/
def hashedStrings (tag rehashTag body : List UInt8) : List (List UInt8) :=
  (tag ++ body) :: (List.range 256).map fun counter => rehashTag ++ body ++ [UInt8.ofNat counter]

def ChallengeInputs.strings (a : ChallengeInputs) : List (List UInt8) :=
  hashedStrings adaptorTag adaptorRehashTag (dleqTag ++ (a.G.toList ++ (a.Hp.toList ++
    (a.TG.toList ++ (a.TH.toList ++ (a.AG.toList ++ (a.AH.toList ++ a.session.bytes)))))))

def CommitInputs.strings (a : CommitInputs) : List (List UInt8) :=
  hashedStrings coopTag coopRehashTag (nonceCommitTag ++ (a.LShare.toList ++ (a.RShare.toList ++
    (a.KIShare.toList ++ (a.DShare.toList ++ (a.adaptor.TG.toList ++ (a.adaptor.TH.toList ++
      (dump a.dleqAlpha ++ (dump a.dleqX ++ (dump a.dleqZ ++ a.session.bytes))))))))))

def DecoyInputs.strings (a : DecoyInputs) : List (List UInt8) :=
  hashedStrings coopTag coopRehashTag (sOthersTag ++ (ringBlob a.ring ++ (leBytes 4 a.pi ++
    (leBytes 4 a.i ++ (a.KI.toList ++ (a.D.toList ++ (a.adaptor.TG.toList ++
      (a.adaptor.TH.toList ++ a.session.bytes))))))))

variable {F E : Type} [Field F] [AddCommGroup E] [Module F E] [DecidableEq F]
variable (curve : Secp256k1 F E)

theorem dleqChallenge_eq (a : ChallengeInputs) :
    dleqChallenge curve a.G a.Hp a.TG a.TH a.AG a.AH a.session.label a.session.payload =
      (a.strings.map curve.sha256).find? curve.seckeyVerify := by
  simp [dleqChallenge, hashToScalarAdaptor, Secp256k1.hashToScalarTagged,
    ChallengeInputs.strings, hashedStrings, Session.bytes]

theorem computeNonceCommitML_eq (a : CommitInputs) (alpha commitment : Scalar) :
    computeNonceCommitML curve ⟨alpha, a.LShare, a.RShare, a.KIShare, a.DShare, a.dleqAlpha,
        a.dleqX, a.dleqZ, commitment⟩ a.adaptor a.session.label a.session.payload =
      (a.strings.map curve.sha256).find? curve.seckeyVerify := by
  simp [computeNonceCommitML, hashToScalarCoopAdaptor, Secp256k1.hashToScalarTagged,
    CommitInputs.strings, hashedStrings, Session.bytes]

theorem derivedSOtherML_eq (a : DecoyInputs) :
    derivedSOtherML curve a.ring a.pi a.i a.KI a.D a.adaptor a.session.label a.session.payload =
      (a.strings.map curve.sha256).find? curve.seckeyVerify := by
  simp [derivedSOtherML, hashToScalarCoopAdaptor, Secp256k1.hashToScalarTagged,
    DecoyInputs.strings, hashedStrings, Session.bytes]

end Strings

section Parsing

/-- Tags that differ within their first bytes begin no common string. -/
theorem append_ne_append {tag tag' : List UInt8} {n : ℕ} (hlen : n ≤ tag.length)
    (hlen' : n ≤ tag'.length) (hne : tag.take n ≠ tag'.take n) (s t : List UInt8) :
    tag ++ s ≠ tag' ++ t := by
  intro h
  have htake := congrArg (List.take n) h
  rw [take_append_of_le_length hlen, take_append_of_le_length hlen'] at htake
  exact hne htake

/-- A first string is never a later one, and equal later ones have the same counter. -/
theorem exists_mem_hashedStrings {tag rehashTag : List UInt8}
    (hapart : ∀ s t, tag ++ s ≠ rehashTag ++ t) {body body' : List UInt8} :
    (∃ m ∈ hashedStrings tag rehashTag body, m ∈ hashedStrings tag rehashTag body') ↔
      body = body' := by
  constructor
  · rintro ⟨m, hm, hm'⟩
    rcases mem_cons.mp hm with rfl | hm <;> rcases mem_cons.mp hm' with heq | hm'
    · exact append_cancel_left heq
    · obtain ⟨counter, -, heq⟩ := mem_map.mp hm'
      rw [append_assoc] at heq
      exact absurd heq.symm (hapart _ _)
    · obtain ⟨counter, -, rfl⟩ := mem_map.mp hm
      rw [append_assoc] at heq
      exact absurd heq.symm (hapart _ _)
    · obtain ⟨counter, -, rfl⟩ := mem_map.mp hm
      obtain ⟨counter', -, heq⟩ := mem_map.mp hm'
      have hbody := (append_inj' heq rfl).1
      exact (append_cancel_left hbody).symm
  · rintro rfl
    exact ⟨_, mem_cons_self, mem_cons_self⟩

theorem dump_append_inj {p q : DLEQProof} {s t : List UInt8} :
    dump p ++ s = dump q ++ t ↔ p = q ∧ s = t := by
  obtain ⟨AG, AH, z⟩ := p
  obtain ⟨AG', AH', z'⟩ := q
  simp only [dump, append_assoc, toList_append_inj, DLEQProof.mk.injEq, and_assoc]

/-- Rings of one size are read off member by member. -/
theorem ringBlob_append_inj {ring ring' : List MultiLayerMember} {s t : List UInt8}
    (hsize : ring.length = ring'.length) :
    ringBlob ring ++ s = ringBlob ring' ++ t ↔ ring = ring' ∧ s = t := by
  induction ring generalizing ring' with
  | nil =>
    obtain rfl := length_eq_zero_iff.mp hsize.symm
    simp
  | cons m ring ih =>
    cases ring' with
    | nil => exact absurd hsize (by simp)
    | cons m' ring' =>
      obtain ⟨P, W⟩ := m
      obtain ⟨P', W'⟩ := m'
      have hrest := ih (Nat.succ.inj hsize)
      rw [ringBlob, ringBlob] at hrest ⊢
      simp only [flatMap_cons, append_assoc, toList_append_inj, hrest, cons.injEq,
        MultiLayerMember.mk.injEq, and_assoc]

end Parsing

section Binding

theorem adaptorTag_apart (s t : List UInt8) : adaptorTag ++ s ≠ adaptorRehashTag ++ t :=
  @append_ne_append adaptorTag adaptorRehashTag 27 (by decide) (by decide) (by decide) s t

theorem coopTag_apart (s t : List UInt8) : coopTag ++ s ≠ coopRehashTag ++ t :=
  @append_ne_append coopTag coopRehashTag 32 (by decide) (by decide) (by decide) s t

/-- The two hashes are of one string for at least one attempt each. -/
def Shared (strings strings' : List (List UInt8)) : Prop := ∃ m ∈ strings, m ∈ strings'

def ChallengeInputs.Agree (a b : ChallengeInputs) : Prop :=
  { a with session := b.session } = b ∧ a.session.bytes = b.session.bytes

def CommitInputs.Agree (a b : CommitInputs) : Prop :=
  { a with session := b.session } = b ∧ a.session.bytes = b.session.bytes

/-- The indices are hashed as four bytes. -/
def DecoyInputs.Agree (a b : DecoyInputs) : Prop :=
  { a with pi := b.pi, i := b.i, session := b.session } = b ∧
    a.pi % 2 ^ 32 = b.pi % 2 ^ 32 ∧ a.i % 2 ^ 32 = b.i % 2 ^ 32 ∧
    a.session.bytes = b.session.bytes

theorem shared_challenge_iff (a b : ChallengeInputs) : Shared a.strings b.strings ↔ a.Agree b := by
  obtain ⟨G, Hp, TG, TH, AG, AH, session⟩ := a
  obtain ⟨G', Hp', TG', TH', AG', AH', session'⟩ := b
  unfold Shared ChallengeInputs.strings
  rw [exists_mem_hashedStrings adaptorTag_apart, append_cancel_left_eq]
  simp only [toList_append_inj, ChallengeInputs.Agree, ChallengeInputs.mk.injEq, and_assoc,
    and_true]

theorem shared_commit_iff (a b : CommitInputs) : Shared a.strings b.strings ↔ a.Agree b := by
  obtain ⟨L, R, KI, D, ⟨TG, TH⟩, dleqAlpha, dleqX, dleqZ, session⟩ := a
  obtain ⟨L', R', KI', D', ⟨TG', TH'⟩, dleqAlpha', dleqX', dleqZ', session'⟩ := b
  unfold Shared CommitInputs.strings
  rw [exists_mem_hashedStrings coopTag_apart, append_cancel_left_eq]
  simp only [toList_append_inj, dump_append_inj, CommitInputs.Agree, CommitInputs.mk.injEq,
    AdaptorPoints.mk.injEq, and_assoc, and_true]

theorem shared_decoy_iff (a b : DecoyInputs) (hsize : a.ring.length = b.ring.length) :
    Shared a.strings b.strings ↔ a.Agree b := by
  obtain ⟨ring, pi, i, KI, D, ⟨TG, TH⟩, session⟩ := a
  obtain ⟨ring', pi', i', KI', D', ⟨TG', TH'⟩, session'⟩ := b
  unfold Shared DecoyInputs.strings
  rw [exists_mem_hashedStrings coopTag_apart, append_cancel_left_eq,
    ringBlob_append_inj hsize]
  simp only [toList_append_inj, leBytes_append_inj, DecoyInputs.Agree, DecoyInputs.mk.injEq,
    AdaptorPoints.mk.injEq, and_assoc, true_and, and_true]
  tauto

/-- The hashed strings have everything in them but the place where the label ends. Nothing is left
open where neither label begins the other. The number of ring members is not in the strings
either. -/
theorem strings_determine_inputs :
    (∀ a b : ChallengeInputs, (Shared a.strings b.strings ↔ a.Agree b) ∧
      (a.session.Separable b.session → Shared a.strings b.strings → a = b)) ∧
    (∀ a b : CommitInputs, (Shared a.strings b.strings ↔ a.Agree b) ∧
      (a.session.Separable b.session → Shared a.strings b.strings → a = b)) ∧
    (∀ a b : DecoyInputs, a.ring.length = b.ring.length →
      (Shared a.strings b.strings ↔ a.Agree b) ∧
      (a.session.Separable b.session → a.pi < 2 ^ 32 → b.pi < 2 ^ 32 → a.i < 2 ^ 32 →
        b.i < 2 ^ 32 → Shared a.strings b.strings → a = b)) := by
  refine ⟨fun a b => ⟨shared_challenge_iff a b, fun hsep hshared => ?_⟩,
    fun a b => ⟨shared_commit_iff a b, fun hsep hshared => ?_⟩,
    fun a b hsize => ⟨shared_decoy_iff a b hsize, fun hsep hpi hpi' hi hi' hshared => ?_⟩⟩
  · obtain ⟨hpoints, hbytes⟩ := (shared_challenge_iff a b).mp hshared
    rw [← hpoints, ← Session.eq_of_bytes hsep hbytes]
  · obtain ⟨hpoints, hbytes⟩ := (shared_commit_iff a b).mp hshared
    rw [← hpoints, ← Session.eq_of_bytes hsep hbytes]
  · obtain ⟨hpoints, hpiEq, hiEq, hbytes⟩ := (shared_decoy_iff a b hsize).mp hshared
    rw [Nat.mod_eq_of_lt hpi, Nat.mod_eq_of_lt hpi'] at hpiEq
    rw [Nat.mod_eq_of_lt hi, Nat.mod_eq_of_lt hi'] at hiEq
    rw [← hpoints, ← Session.eq_of_bytes hsep hbytes, ← hpiEq, ← hiEq]

end Binding

section Sample

def sampleChallenge (session : Session) : ChallengeInputs :=
  ⟨samplePoint 1, samplePoint 2, samplePoint 3, samplePoint 4, samplePoint 5, samplePoint 6,
    session⟩

def sampleCommit (session : Session) : CommitInputs :=
  ⟨samplePoint 1, samplePoint 2, samplePoint 3, samplePoint 4, ⟨samplePoint 5, samplePoint 6⟩,
    ⟨samplePoint 1, samplePoint 2, sampleScalar 3⟩, ⟨samplePoint 2, samplePoint 3, sampleScalar 4⟩,
    ⟨samplePoint 3, samplePoint 4, sampleScalar 5⟩, session⟩

def sampleDecoy (session : Session) : DecoyInputs :=
  ⟨sampleRing, 1, 0, samplePoint 1, samplePoint 2, ⟨samplePoint 3, samplePoint 4⟩, session⟩

/-- A byte that moves from the payload to the label changes nothing in what is hashed, and a label
of two points' length can stand for a ring member. -/
theorem strings_of_moved_boundary :
    (⟨[1], [2, 3]⟩ : Session) ≠ ⟨[1, 2], [3]⟩ ∧
    (sampleChallenge ⟨[1], [2, 3]⟩).strings = (sampleChallenge ⟨[1, 2], [3]⟩).strings ∧
    (sampleCommit ⟨[1], [2, 3]⟩).strings = (sampleCommit ⟨[1, 2], [3]⟩).strings ∧
    (sampleDecoy ⟨[1], [2, 3]⟩).strings = (sampleDecoy ⟨[1, 2], [3]⟩).strings ∧
    (⟨[], 0, 0, .replicate 33 0, .replicate 33 0,
      ⟨.replicate 33 0, .replicate 33 0⟩,
      ⟨List.replicate 66 0, []⟩⟩ : DecoyInputs).strings =
    (⟨[⟨.replicate 33 0, .replicate 33 0⟩], 0, 0,
      .replicate 33 0, .replicate 33 0,
      ⟨.replicate 33 0, .replicate 33 0⟩,
      ⟨[], []⟩⟩ : DecoyInputs).strings := by
  refine ⟨by decide, rfl, rfl, rfl, congrArg (hashedStrings coopTag coopRehashTag) ?_⟩
  decide +kernel

/-- Two payloads under one label. -/
theorem strings_determine_inputs_payloads :
    ¬ Shared (sampleChallenge ⟨[1], [2]⟩).strings (sampleChallenge ⟨[1], [3]⟩).strings ∧
    ¬ Shared (sampleCommit ⟨[1], [2]⟩).strings (sampleCommit ⟨[1], [3]⟩).strings ∧
    ¬ Shared (sampleDecoy ⟨[1], [2]⟩).strings (sampleDecoy ⟨[1], [3]⟩).strings := by
  have hsep : (⟨[1], [2]⟩ : Session).Separable ⟨[1], [3]⟩ := fun _ => rfl
  refine ⟨fun hshared => ?_, fun hshared => ?_, fun hshared => ?_⟩
  · have heq := (strings_determine_inputs.1 _ _).2 hsep hshared
    exact absurd (congrArg (·.session.payload) heq) (by decide)
  · have heq := (strings_determine_inputs.2.1 _ _).2 hsep hshared
    exact absurd (congrArg (·.session.payload) heq) (by decide)
  · have heq := (strings_determine_inputs.2.2 (sampleDecoy ⟨[1], [2]⟩) (sampleDecoy ⟨[1], [3]⟩)
      rfl).2 hsep (by decide) (by decide) (by decide) (by decide) hshared
    exact absurd (congrArg (·.session.payload) heq) (by decide)

end Sample

end Pricoin.SessionBinding
