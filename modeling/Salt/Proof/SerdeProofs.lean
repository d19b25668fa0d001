import Salt.Proof.Serde

namespace Salt.Serde

open Std (ExtTreeMap)
open Banderwagon Multipoint Library.Triple Library.Entries

section Levels

theorem foldlM_insertLevel (l : List (ℕ × ℕ)) (map : FxHashMap) :
    (((map.entries ++ l).map Prod.fst).Nodup →
      ∃ map', l.foldlM insertLevel map = .ok map' ∧ map'.entries = map.entries ++ l) ∧
    (¬ ((map.entries ++ l).map Prod.fst).Nodup →
      l.foldlM insertLevel map = .error (.custom "duplicate BucketId in levels")) := by
  induction l generalizing map with
  | nil =>
    rw [List.append_nil]
    exact ⟨fun _ ↦ ⟨map, rfl, rfl⟩, fun h ↦ absurd map.nodup h⟩
  | cons e l ih =>
    by_cases hmem : e.1 ∈ map.entries.map Prod.fst
    · have hstep : insertLevel map e = .error (.custom "duplicate BucketId in levels") := dif_pos hmem
      refine ⟨fun h ↦ absurd h ?_, fun _ ↦ by rw [List.foldlM_cons, hstep]; rfl⟩
      rw [List.map_append, List.nodup_append']
      rintro ⟨-, -, hdisjoint⟩
      exact hdisjoint hmem (List.mem_map_of_mem (List.mem_cons_self ..))
    · obtain ⟨map', hstep, hentries⟩ : ∃ map', insertLevel map e = .ok map' ∧ map'.entries = map.entries ++ [e] :=
        ⟨_, dif_neg hmem, rfl⟩
      have happend : map'.entries ++ l = map.entries ++ e :: l := by
        rw [hentries, List.append_assoc]
        rfl
      rw [List.foldlM_cons, hstep, ok_bind, ← happend]
      exact ih map'

theorem deserializeLevels_of_nodup {l : List (ℕ × ℕ)} (h : (l.map Prod.fst).Nodup) :
    ∃ map, deserializeLevels l = .ok map ∧ map.entries = l :=
  (foldlM_insertLevel l ⟨[], List.nodup_nil⟩).1 h

theorem deserializeLevels_of_not_nodup {l : List (ℕ × ℕ)} (h : ¬ (l.map Prod.fst).Nodup) :
    deserializeLevels l = .error (.custom "duplicate BucketId in levels") :=
  (foldlM_insertLevel l ⟨[], List.nodup_nil⟩).2 h

theorem perm_serializeLevels (map : FxHashMap) : (serializeLevels map).Perm map.entries :=
  List.mergeSort_perm _ _

end Levels

section Commitments

variable {q : ℕ} [Fact q.Prime] {c : Curve q}

theorem commitments_roundTrip {es : List (ℕ × Element q)} (h : ∀ e ∈ es, Element.Valid c e.2) :
    ∃ raw es', es.mapM (serializeCommitment c) = .ok raw ∧ raw.mapM (deserializeCommitment c) = .ok es' ∧
      raw.map Prod.fst = es.map Prod.fst ∧ (∀ e ∈ raw, e.2.length = 32) ∧
      List.Forall₂ (fun a b ↦ a.1 = b.1 ∧ a.2.eq b.2 = true) es' es := by
  induction es with
  | nil => exact ⟨[], [], rfl, rfl, rfl, fun e he ↦ absurd he List.not_mem_nil, .nil⟩
  | cons e es ih =>
    obtain ⟨raw, es', hraw, hdecode, hkeys, hlen, hsame⟩ := ih fun x hx ↦ h x (List.mem_cons_of_mem _ hx)
    obtain ⟨b, e', hb, hblen, hfrom, heq⟩ := Element.fromBytes_toBytes (h e (List.mem_cons_self ..))
    have hser : serializeCommitment c e = .ok (e.1, b) := by
      rw [serializeCommitment, hb]
      rfl
    have hdes : deserializeCommitment c (e.1, b) = .ok (e.1, e') := by
      rw [deserializeCommitment, hfrom]
      rfl
    refine ⟨(e.1, b) :: raw, (e.1, e') :: es', ?_, ?_, ?_, ?_, .cons ⟨rfl, heq⟩ hsame⟩
    · rw [List.mapM_cons, hser, ok_bind, hraw]
      rfl
    · rw [List.mapM_cons, hdes, ok_bind, hdecode]
      rfl
    · rw [List.map_cons, List.map_cons, hkeys]
    · intro x hx
      rcases List.mem_cons.mp hx with rfl | hx
      · exact hblen
      · exact hlen x hx

theorem sorted_of_keys {α β : Type} {l : List (ℕ × α)} {l' : List (ℕ × β)}
    (h : l.Pairwise fun a b ↦ a.1 < b.1) (hkeys : l'.map Prod.fst = l.map Prod.fst) :
    l'.Pairwise fun a b ↦ a.1 < b.1 := by
  rw [← List.pairwise_map (f := Prod.fst) (R := (· < ·)), hkeys]
  exact List.pairwise_map.mpr h

theorem keys_of_forall₂ {l l' : List (ℕ × Element q)}
    (h : List.Forall₂ (fun a b ↦ a.1 = b.1 ∧ a.2.eq b.2 = true) l l') : l.map Prod.fst = l'.map Prod.fst := by
  induction h with
  | nil => rfl
  | cons hab _ ih => rw [List.map_cons, List.map_cons, hab.1, ih]

theorem deserializeCommitments_roundTrip {m : ExtTreeMap ℕ (Element q)} (h : ∀ e ∈ m.toList, Element.Valid c e.2) :
    ∃ raw m', m.toList.mapM (serializeCommitment c) = .ok raw ∧ raw.map Prod.fst = m.toList.map Prod.fst ∧
      (∀ e ∈ raw, e.2.length = 32) ∧ deserializeCommitments c raw = .ok m' ∧
      List.Forall₂ (fun a b ↦ a.1 = b.1 ∧ a.2.eq b.2 = true) m'.toList m.toList := by
  obtain ⟨raw, es', hraw, hdecode, hkeys, hlen, hsame⟩ := commitments_roundTrip h
  have hsorted := toList_sorted m
  have hes : (ExtTreeMap.ofList es').toList = es' :=
    toList_ofList_of_sorted (sorted_of_keys hsorted (keys_of_forall₂ hsame))
  refine ⟨raw, ExtTreeMap.ofList es', hraw, hkeys, hlen, ?_, by rwa [hes]⟩
  rw [deserializeCommitments, toList_ofList_of_sorted (sorted_of_keys hsorted hkeys), hdecode]
  rfl

theorem serializeCommitments_congr {l l' : List (ℕ × Element q)} (h : ∀ e ∈ l, Element.Valid c e.2)
    (h' : ∀ e ∈ l', Element.Valid c e.2) (hsame : List.Forall₂ (fun a b ↦ a.1 = b.1 ∧ a.2.eq b.2 = true) l l') :
    l.mapM (serializeCommitment c) = l'.mapM (serializeCommitment c) := by
  induction hsame with
  | nil => rfl
  | @cons a b l l' hab _ ih =>
    have hbytes : a.2.toBytes c = b.2.toBytes c := by
      have ha := h a (List.mem_cons_self ..)
      have hb := h' b (List.mem_cons_self ..)
      rw [ha.toBytes_iff hb, ← ha.eq_iff hb]
      exact hab.2
    rw [List.mapM_cons, List.mapM_cons, ih (fun e he ↦ h e (List.mem_cons_of_mem _ he))
      fun e he ↦ h' e (List.mem_cons_of_mem _ he), serializeCommitment, serializeCommitment, hbytes, hab.1]

/-- A commitment that stays in the raw map, being the last of its node, and is no valid point. -/
def InvalidRemains (c : Curve q) (entries : List (ℕ × Bytes)) : Prop :=
  ∃ before node bytes after, entries = before ++ (node, bytes) :: after ∧ (∀ e ∈ after, e.1 ≠ node) ∧
    ¬ IsPoint c bytes

theorem deserializeCommitment_cases (c : Curve q) (e : ℕ × Bytes) :
    (IsPoint c e.2 ∧ ∃ e', deserializeCommitment c e = .ok e') ∨
      (¬ IsPoint c e.2 ∧ deserializeCommitment c e = .error (.custom "invalid element bytes")) := by
  rw [deserializeCommitment]
  rcases fromBytes_cases c e.2 with ⟨e', he'⟩ | ⟨herror, hnot⟩
  · rw [he']
    exact Or.inl ⟨⟨e', he'⟩, _, rfl⟩
  · rw [herror]
    exact Or.inr ⟨hnot, rfl⟩

theorem invalidRemains_iff {entries : List (ℕ × Bytes)} : InvalidRemains c entries ↔
    ∃ e ∈ (ExtTreeMap.ofList entries : ExtTreeMap ℕ Bytes).toList, ¬ IsPoint c e.2 := by
  constructor
  · rintro ⟨before, node, bytes, after, hl, hafter, hnot⟩
    refine ⟨(node, bytes), ?_, hnot⟩
    rw [ExtTreeMap.mem_toList_iff_getElem?_eq_some, getElem?_ofList_iff]
    exact ⟨before, after, hl, hafter⟩
  · rintro ⟨⟨node, bytes⟩, hmem, hnot⟩
    rw [ExtTreeMap.mem_toList_iff_getElem?_eq_some, getElem?_ofList_iff] at hmem
    obtain ⟨before, after, hl, hafter⟩ := hmem
    exact ⟨before, node, bytes, after, hl, hafter, hnot⟩

theorem deserializeCommitments_of_invalid {entries : List (ℕ × Bytes)} (h : InvalidRemains c entries) :
    deserializeCommitments c entries = .error (.custom "invalid element bytes") := by
  obtain ⟨e, he, hnot⟩ := invalidRemains_iff.mp h
  have herror : (ExtTreeMap.ofList entries : ExtTreeMap ℕ Bytes).toList.mapM (deserializeCommitment c) =
      .error (.custom "invalid element bytes") := by
    apply mapM_error
    · intro a _
      rcases deserializeCommitment_cases c a with ⟨-, hok⟩ | ⟨-, herr⟩
      · exact Or.inl hok
      · exact Or.inr herr
    · rcases deserializeCommitment_cases c e with ⟨hpoint, -⟩ | ⟨-, herr⟩
      · exact absurd hpoint hnot
      · exact ⟨e, he, herr⟩
  rw [deserializeCommitments]
  simp only [herror]
  rfl

theorem deserializeCommitments_of_valid {entries : List (ℕ × Bytes)} (h : ¬ InvalidRemains c entries) :
    ∃ m, deserializeCommitments c entries = .ok m := by
  have hall : ∀ e ∈ (ExtTreeMap.ofList entries : ExtTreeMap ℕ Bytes).toList,
      ∃ e', deserializeCommitment c e = .ok e' := by
    intro e he
    rcases deserializeCommitment_cases c e with ⟨-, hok⟩ | ⟨hnot, -⟩
    · exact hok
    · exact absurd (invalidRemains_iff.mpr ⟨e, he, hnot⟩) h
  obtain ⟨es, hes⟩ := exists_mapM_ok hall
  rw [deserializeCommitments]
  simp only [hes]
  exact ⟨_, rfl⟩

end Commitments

section Proof

variable {q r : ℕ} [Fact q.Prime] {c : Curve q} {scalars : FieldCodec r}

theorem encodePoints_congr {l l' : List (Element q)} (h : ∀ e ∈ l, Element.Valid c e)
    (h' : ∀ e ∈ l', Element.Valid c e) (hsame : l.isEqv l' Element.eq = true) :
    encodePoints c l = encodePoints c l' := by
  have hmap : l.mapM (Element.toBytes c) = l'.mapM (Element.toBytes c) := by
    induction l generalizing l' with
    | nil =>
      cases l' with
      | nil => rfl
      | cons b l' => cases hsame
    | cons a l ih =>
      cases l' with
      | nil => cases hsame
      | cons b l' =>
        obtain ⟨hab, hrest⟩ := Bool.and_eq_true_iff.mp hsame
        have ha := h a (List.mem_cons_self ..)
        have hb := h' b (List.mem_cons_self ..)
        have hbytes : a.toBytes c = b.toBytes c := by
          rw [ha.toBytes_iff hb, ← ha.eq_iff hb]
          exact hab
        rw [List.mapM_cons, List.mapM_cons, hbytes, ih (fun e he ↦ h e (List.mem_cons_of_mem _ he))
          (fun e he ↦ h' e (List.mem_cons_of_mem _ he)) hrest]
  rw [encodePoints, encodePoints, hmap]

theorem proof_toBytes_congr (scalars : FieldCodec r) {p p' : SaltProof q r} (h : p.Valid c) (h' : p'.Valid c)
    (heq : p.proof.eq p'.proof = true) : p.proof.toBytes c scalars = p'.proof.toBytes c scalars := by
  rw [MultiPointProof.eq, Bool.and_eq_true, Bool.and_eq_true, Bool.and_eq_true, decide_eq_true_eq] at heq
  obtain ⟨⟨⟨hL, hR⟩, ha⟩, hg⟩ := heq
  have hgbytes : p.proof.gXComm.toBytes c = p'.proof.gXComm.toBytes c := by
    rw [h.gXCommValid.toBytes_iff h'.gXCommValid, ← h.gXCommValid.eq_iff h'.gXCommValid]
    exact hg
  rw [MultiPointProof.toBytes, MultiPointProof.toBytes, IPAProof.toBytes, IPAProof.toBytes, hgbytes,
    encodePoints_congr h.leftValid h'.leftValid hL, encodePoints_congr h.rightValid h'.rightValid hR, ha]

def ProofPanics (c : Curve q) (bytes : Bytes) : Prop :=
  bytes.length < 32 ∨ (IsPoint c (chunk bytes 0) ∧ bytes.length % 2 ^ 32 ≠ 32 * 18)

def ProofInvalid (c : Curve q) (scalars : FieldCodec r) (bytes : Bytes) : Prop :=
  (∃ i < 17, ¬ IsPoint c (chunk bytes i)) ∨ ¬ IsScalar scalars (chunk bytes 17)

theorem proof_panics {bytes : Bytes} (h : ProofPanics c bytes) :
    ∃ p, mapErr "invalid data" (MultiPointProof.fromBytes c scalars bytes domainSize) = .error (.panic p) := by
  obtain ⟨p, hp⟩ := @multi_fromBytes_panics q r _ c scalars 8 (by norm_num) bytes h
  have hp' : MultiPointProof.fromBytes c scalars bytes domainSize = .error (.panic p) := hp
  rw [hp']
  exact ⟨p, rfl⟩

theorem proof_cases (scalars : FieldCodec r) {bytes : Bytes} (h : ¬ ProofPanics c bytes) :
    (ProofInvalid c scalars bytes ∧
      mapErr "invalid data" (MultiPointProof.fromBytes c scalars bytes domainSize) = .error (.custom "invalid data")) ∨
    (¬ ProofInvalid c scalars bytes ∧
      ∃ p, mapErr "invalid data" (MultiPointProof.fromBytes c scalars bytes domainSize) = .ok p) := by
  obtain ⟨hlong, hfirst⟩ := not_or.mp h
  by_cases hpoint : IsPoint c (chunk bytes 0)
  · have hlen : bytes.length % 2 ^ 32 = 32 * (2 * 8 + 2) := by
      by_contra hne
      exact hfirst ⟨hpoint, hne⟩
    rcases multi_fromBytes_cases c scalars 8 (by norm_num) bytes hlen with ⟨p, hp, -, -, -, hpoints,
      hscalar⟩ | ⟨herror, hnot⟩
    · have hp' : MultiPointProof.fromBytes c scalars bytes domainSize = .ok p := hp
      rw [hp']
      refine Or.inr ⟨?_, p, rfl⟩
      rintro (⟨i, hi, hnot⟩ | hnot)
      · exact hnot (hpoints i hi)
      · exact hnot hscalar
    · have herror' : MultiPointProof.fromBytes c scalars bytes domainSize = .error .invalidData := herror
      rw [herror']
      exact Or.inl ⟨hnot, rfl⟩
  · rcases fromBytes_cases c (bytes.take 32) with he | ⟨herror, hnot⟩
    · exact absurd he hpoint
    · refine Or.inl ⟨Or.inl ⟨0, by norm_num, hpoint⟩, ?_⟩
      rw [MultiPointProof.fromBytes, if_neg hlong, herror]
      rfl

end Proof

section Streams

variable {q r : ℕ} [Fact q.Prime] {c : Curve q} {scalars : FieldCodec r}

def RepeatsBucket (w : Wire) : Prop := ¬ (w.levels.map Prod.fst).Nodup

def HasInvalidPoint (c : Curve q) (w : Wire) : Prop := ∃ e ∈ w.parentsCommitments, ¬ IsPoint c e.2

def Rejected (f : Format) (c : Curve q) (scalars : FieldCodec r) (bytes : Bytes) : Prop :=
  ∃ message, SaltProof.deserialize f c scalars bytes = .error (.custom message)

theorem rejected_iff (f : Format) (scalars : FieldCodec r) {bytes : Bytes} {w : Wire} (hw : f.decode bytes = .ok w) :
    Rejected f c scalars bytes ↔ InvalidRemains c w.parentsCommitments ∨
      (¬ ProofPanics c w.proof ∧ (ProofInvalid c scalars w.proof ∨ RepeatsBucket w)) := by
  have hformat : decodeFormat f bytes = .ok w := by
    rw [decodeFormat, hw]
  rw [Rejected, SaltProof.deserialize, hformat]
  simp only [ok_bind]
  by_cases hcom : InvalidRemains c w.parentsCommitments
  · rw [deserializeCommitments_of_invalid hcom]
    exact ⟨fun _ ↦ Or.inl hcom, fun _ ↦ ⟨_, rfl⟩⟩
  · obtain ⟨m, hm⟩ := deserializeCommitments_of_valid hcom
    rw [hm, ok_bind]
    by_cases hpanic : ProofPanics c w.proof
    · obtain ⟨p, hp⟩ := @proof_panics q r _ c scalars _ hpanic
      rw [hp]
      constructor
      · rintro ⟨message, hmessage⟩
        cases hmessage
      · rintro (h | ⟨h, -⟩)
        · exact absurd h hcom
        · exact absurd hpanic h
    · rcases proof_cases scalars hpanic with ⟨hinvalid, herror⟩ | ⟨hvalid, p, hp⟩
      · rw [herror]
        exact ⟨fun _ ↦ Or.inr ⟨hpanic, Or.inl hinvalid⟩, fun _ ↦ ⟨_, rfl⟩⟩
      · rw [hp, ok_bind]
        by_cases hrepeat : RepeatsBucket w
        · rw [deserializeLevels_of_not_nodup hrepeat]
          exact ⟨fun _ ↦ Or.inr ⟨hpanic, Or.inr hrepeat⟩, fun _ ↦ ⟨_, rfl⟩⟩
        · obtain ⟨map, hmap, -⟩ := deserializeLevels_of_nodup (not_not.mp hrepeat)
          rw [hmap]
          constructor
          · rintro ⟨message, hmessage⟩
            cases hmessage
          · rintro (h | ⟨-, h | h⟩)
            · exact absurd h hcom
            · exact absurd h hvalid
            · exact absurd h hrepeat

theorem deserialize_eq_ok {f : Format} {bytes : Bytes} {w : Wire} {m : ExtTreeMap ℕ (Element q)}
    {mp : MultiPointProof (ZMod r) (Element q)} {map : FxHashMap} (hw : f.decode bytes = .ok w)
    (hm : deserializeCommitments c w.parentsCommitments = .ok m)
    (hmp : MultiPointProof.fromBytes c scalars w.proof domainSize = .ok mp)
    (hmap : deserializeLevels w.levels = .ok map) :
    SaltProof.deserialize f c scalars bytes = .ok ⟨m, mp, map⟩ := by
  rw [SaltProof.deserialize, decodeFormat, hw]
  simp only [ok_bind, hm, hmp, mapErr, hmap]

theorem serialize_congr (f : Format) (scalars : FieldCodec r) {p p' : SaltProof q r} (h : p.Valid c) (h' : p'.Valid c)
    (hsame : SameContent p p') : p.serialize f c scalars = p'.serialize f c scalars := by
  have hlevels : serializeLevels p.levels = serializeLevels p'.levels :=
    mergeSort_eq_of_perm hsame.levels p.levels.nodup
  rw [SaltProof.serialize, SaltProof.serialize, hlevels, proof_toBytes_congr scalars h h' hsame.proof,
    serializeCommitments_congr (fun e he ↦ (h.commitments e he).1) (fun e he ↦ (h'.commitments e he).1)
      hsame.commitments]

theorem deserialize_serialize_proof (f : Format) (scalars : FieldCodec r) {p : SaltProof q r} (h : p.Valid c) :
    ∃ bytes p', p.serialize f c scalars = .ok bytes ∧ SaltProof.deserialize f c scalars bytes = .ok p' ∧
    SameContent p' p := by
  obtain ⟨raw, m, hraw, hkeys, hlen, hm, hsame⟩ :=
    deserializeCommitments_roundTrip fun e he ↦ (h.commitments e he).1
  obtain ⟨proof, mp, hproof, hprooflen, hmp, heq⟩ := multi_fromBytes_toBytes scalars (show 8 < 64 by norm_num) p.proof
    h.left h.right h.leftValid h.rightValid h.gXCommValid
  have hperm := perm_serializeLevels p.levels
  have hnodup : ((serializeLevels p.levels).map Prod.fst).Nodup := (hperm.map Prod.fst).nodup_iff.mpr p.levels.nodup
  obtain ⟨map, hmap, hentries⟩ := deserializeLevels_of_nodup hnodup
  have hrawlen : raw.length = p.parentsCommitments.toList.length := by
    have hlength := congrArg List.length hkeys
    rwa [List.length_map, List.length_map] at hlength
  have hfits : Wire.Fits ⟨raw, proof, serializeLevels p.levels⟩ := by
    refine ⟨fun e he ↦ ⟨?_, hlen e he⟩, ?_, ?_, fun e he ↦ h.levels e (hperm.mem_iff.mp he), ?_⟩
    · have hmem : e.1 ∈ p.parentsCommitments.toList.map Prod.fst := hkeys ▸ List.mem_map_of_mem he
      obtain ⟨e', he', hfst⟩ := List.mem_map.mp hmem
      rw [← hfst]
      exact (h.commitments e' he').2
    · exact hrawlen ▸ h.commitmentsLength
    · rw [hprooflen]
      norm_num
    · exact hperm.length_eq ▸ h.levelsLength
  refine ⟨f.encode ⟨raw, proof, serializeLevels p.levels⟩, ⟨m, mp, map⟩, ?_, ?_, hsame, heq, ?_⟩
  · rw [SaltProof.serialize, hraw, ok_bind, hproof]
    rfl
  · exact deserialize_eq_ok (f.decode_encode _ hfits) hm hmp hmap
  · rw [hentries]
    exact hperm

/-- Serialization round-trips and depends on the content only; which of the streams with a repeated bucket or
an invalid point are refused with an error. -/
theorem salt_proof_serde_exact (f : Format) (c : Curve q) (scalars : FieldCodec r) :
    (∀ p : SaltProof q r, p.Valid c → ∃ bytes p', p.serialize f c scalars = .ok bytes ∧
      SaltProof.deserialize f c scalars bytes = .ok p' ∧ SameContent p' p) ∧
    (∀ p p' : SaltProof q r, p.Valid c → p'.Valid c → SameContent p p' → p.serialize f c scalars =
    p'.serialize f c scalars) ∧
    ∀ bytes w, f.decode bytes = .ok w → RepeatsBucket w ∨ HasInvalidPoint c w →
      (Rejected f c scalars bytes ↔ InvalidRemains c w.parentsCommitments ∨
        (¬ ProofPanics c w.proof ∧ (ProofInvalid c scalars w.proof ∨ RepeatsBucket w))) :=
  ⟨fun _ h ↦ deserialize_serialize_proof f scalars h, fun _ _ h h' hsame ↦ serialize_congr f scalars h h' hsame,
    fun _ _ hw _ ↦ rejected_iff f scalars hw⟩

def twoNodes (e : Element modulus) (levels : FxHashMap) : SaltProof modulus scalarModulus where
  parentsCommitments := ExtTreeMap.ofList [(0, e), (1, Element.zero)]
  proof := ⟨⟨List.replicate 8 e, List.replicate 8 Element.zero, 3⟩, e⟩
  levels := levels

theorem twoNodes_commitments (e : Element modulus) (levels : FxHashMap) :
    (twoNodes e levels).parentsCommitments.toList = [(0, e), (1, Element.zero)] :=
  toList_ofList_of_sorted (by simp)

theorem twoNodes_valid {e : Element modulus} {levels : FxHashMap} (he : Element.Valid bandersnatch e)
    (hlevels : levels.entries.Perm [(65536, 1), (65537, 2)]) : (twoNodes e levels).Valid bandersnatch := by
  have hzero := Element.valid_zero bandersnatch
  refine ⟨?_, ?_, rfl, rfl, ?_, ?_, he, ?_, ?_⟩
  · intro e' he'
    rw [twoNodes_commitments, List.mem_pair] at he'
    rcases he' with rfl | rfl
    · exact ⟨he, by norm_num⟩
    · exact ⟨hzero, by norm_num⟩
  · rw [twoNodes_commitments]
    norm_num
  · intro e' he'
    rw [List.eq_of_mem_replicate he']
    exact he
  · intro e' he'
    rw [List.eq_of_mem_replicate he']
    exact hzero
  · intro e' he'
    rcases List.mem_pair.mp (hlevels.mem_iff.mp he') with rfl | rfl <;> norm_num
  · refine hlevels.length_eq.trans_lt ?_
    norm_num

theorem isEqv_replicate {e e' : Element modulus} (h : e.eq e' = true) (n : ℕ) :
    (List.replicate n e).isEqv (List.replicate n e') Element.eq = true := by
  induction n with
  | zero => rfl
  | succ n ih => rw [List.replicate_succ, List.replicate_succ, List.isEqv, h, ih, Bool.and_self]

theorem twoNodes_sameContent {e e' : Element modulus} {levels levels' : FxHashMap} (h : e.eq e' = true)
    (hlevels : levels.entries.Perm levels'.entries) :
    SameContent (twoNodes e levels) (twoNodes e' levels') := by
  have hzero := Element.valid_zero bandersnatch
  have hsame : (Element.zero : Element modulus).eq Element.zero = true := (hzero.eq_iff hzero).mpr (.inl rfl)
  refine ⟨?_, ?_, hlevels⟩
  · rw [twoNodes_commitments, twoNodes_commitments]
    exact .cons ⟨rfl, h⟩ (.cons ⟨rfl, hsame⟩ .nil)
  · simp only [twoNodes, MultiPointProof.eq, isEqv_replicate h, isEqv_replicate hsame, h, decide_true, Bool.and_self]

def generatorProof : SaltProof modulus scalarModulus :=
  twoNodes (.ofAffine (generator.1 : Fq) (generator.2 : Fq)) ⟨[(65536, 1), (65537, 2)], by decide⟩

def negGeneratorProof : SaltProof modulus scalarModulus :=
  twoNodes Element.negGenerator ⟨[(65537, 2), (65536, 1)], by decide⟩

theorem generatorProof_valid : generatorProof.Valid bandersnatch :=
  twoNodes_valid Element.valid_generator (.refl _)

theorem negGeneratorProof_valid : negGeneratorProof.Valid bandersnatch :=
  twoNodes_valid Element.valid_negGenerator (.swap ..)

theorem salt_proof_serde_exact_generator : generatorProof.Valid bandersnatch ∧ negGeneratorProof.Valid bandersnatch ∧
    generatorProof.serialize bincode bandersnatch scalarCodec =
      negGeneratorProof.serialize bincode bandersnatch scalarCodec ∧
    ∃ bytes p', generatorProof.serialize bincode bandersnatch scalarCodec = .ok bytes ∧
      SaltProof.deserialize bincode bandersnatch scalarCodec bytes = .ok p' ∧ SameContent p' generatorProof := by
  obtain ⟨hround, hcontent, -⟩ := salt_proof_serde_exact bincode bandersnatch scalarCodec
  refine ⟨generatorProof_valid, negGeneratorProof_valid, ?_, hround _ generatorProof_valid⟩
  refine hcontent _ _ generatorProof_valid negGeneratorProof_valid (twoNodes_sameContent ?_ (.swap ..))
  rw [Element.valid_generator.eq_iff Element.valid_negGenerator]
  refine .inr ?_
  rw [Element.affine_negGenerator, neg_neg, Element.affine_ofAffine]

/-- The first of two commitments for the node 1 is not a field element, and the stream is accepted. -/
theorem salt_proof_superseded_point : ∃ bytes w, bincode.decode bytes = .ok w ∧ HasInvalidPoint bandersnatch w ∧
    ∃ p, SaltProof.deserialize bincode bandersnatch scalarCodec bytes = .ok p := by
  have hvalid := generatorProof_valid
  obtain ⟨proof, mp, -, hlen, hmp, -⟩ := multi_fromBytes_toBytes scalarCodec (show 8 < 64 by norm_num)
    generatorProof.proof hvalid.left hvalid.right hvalid.leftValid hvalid.rightValid hvalid.gXCommValid
  have hmp' : MultiPointProof.fromBytes bandersnatch scalarCodec proof domainSize = .ok mp := hmp
  have hzero : IsPoint bandersnatch (List.replicate 32 0) := by
    obtain ⟨bytes, e', hbytes, -, hfrom, -⟩ := Element.fromBytes_toBytes (Element.valid_zero bandersnatch)
    rw [Element.toBytes_zero] at hbytes
    cases hbytes
    exact ⟨e', hfrom⟩
  have hlarge : ¬ IsPoint bandersnatch (List.replicate 32 255) := by
    rintro ⟨e, he⟩
    have herror : bandersnatch.deserialize (List.replicate 32 (255 : Fin 256)).reverse = .error .invalidData :=
      littleEndian_rejects (by norm_num [modulus]) (by decide +kernel)
    rw [Element.fromBytes, herror] at he
    cases he
  have hfits : Wire.Fits ⟨[(1, List.replicate 32 255), (1, List.replicate 32 0)], proof, []⟩ := by
    refine ⟨by simp, by norm_num, by rw [hlen]; norm_num, by simp, by norm_num⟩
  have hremains : ¬ InvalidRemains bandersnatch [(1, List.replicate 32 255), (1, List.replicate 32 0)] := by
    rintro ⟨before, node, bytes, after, hl, hafter, hnot⟩
    rcases before with - | ⟨x, - | ⟨y, before⟩⟩
    · obtain ⟨hfirst, rfl⟩ := List.cons.inj hl
      exact hafter (1, List.replicate 32 0) (List.mem_singleton.mpr rfl) (congrArg Prod.fst hfirst)
    · obtain ⟨hsecond, -⟩ := List.cons.inj (List.cons.inj hl).2
      apply hnot
      rw [← (Prod.mk.inj hsecond).2]
      exact hzero
    · have hlength := congrArg List.length hl
      simp at hlength
  obtain ⟨m, hm⟩ := deserializeCommitments_of_valid hremains
  refine ⟨_, _, bincode.decode_encode _ hfits, ⟨(1, List.replicate 32 255), List.mem_cons_self .., hlarge⟩,
    ⟨m, mp, ⟨[], List.nodup_nil⟩⟩, deserialize_eq_ok (bincode.decode_encode _ hfits) hm hmp' rfl⟩

end Streams

end Salt.Serde
