import JarSigners.Proofs.Certificate.Reading
import JarSigners.Proofs.Signing.FileNames
import JarSigners.Proofs.Signing.Issued
import JarSigners.Proofs.Text.Utf8

/-!
# Names are shown as they were given

A name is given by keys and values, most specific first. Its parts are written in the opposite order
and shown in the opposite order again. The keys and the short names that kinds are shown by stand in
two tables, and these agree on the keys a name can be given with (`kindText_of_givenKind?`). So what
is shown is what was given, with the keys in capitals, and also when the name was written in a
certificate and read again.
-/

set_option autoImplicit false

namespace JarSigners

open Asn1 (Element)

variable {pairs : List (String × String)} {name : DistinguishedName}

/-! ### Keys -/

/-- Capitals are found in a text that is alike to them. -/
theorem Text.capitals_eq_iff_alike {text capital : String} (h : Text.capitals capital = capital) :
    Text.capitals text = capital ↔ Text.alike text capital = true := by
  have hfixed : capital.toList.map Char.toUpper = capital.toList := by
    rw [← String.toList_inj, Text.capitals, String.toList_ofList] at h
    exact h
  rw [Text.alike_iff, ← String.toList_inj, Text.capitals, String.toList_ofList]
  constructor
  · intro hsame
    rw [← hsame, Text.folded_map_toUpper]
  · intro hfolded
    rw [← Text.map_toUpper_folded, hfolded, Text.map_toUpper_folded, hfixed]

namespace DistinguishedName

/-- The keys that a name can be given with. -/
def givenKeys : List String :=
  ["CN", "C", "L", "ST", "O", "OU"]

/-- Whether a text is one of these keys, in whatever case. -/
def IsGiven (key : String) : Prop :=
  ∃ known ∈ givenKeys, Text.alike key known = true

instance (key : String) : Decidable (IsGiven key) :=
  inferInstanceAs (Decidable (∃ known ∈ givenKeys, _))

/-- A key and a value, with the key in capitals. -/
def shownPair (pair : String × String) : String :=
  Text.capitals pair.1 ++ "=" ++ pair.2

/-- A kind is known for the keys that a name can be given with. -/
theorem givenKind?_eq_none_iff {key : String} : givenKind? key = none ↔ ¬IsGiven key := by
  have htable : givenKinds.map Prod.fst = givenKeys := rfl
  have hcapitals : ∀ known ∈ givenKeys, Text.capitals known = known := by decide
  rw [givenKind?, Option.map_eq_none_iff, List.find?_eq_none, IsGiven, ← htable]
  simp only [decide_eq_true_eq, not_exists, not_and, List.forall_mem_map]
  refine forall₂_congr fun known hknown => not_congr ?_
  have hcapital := hcapitals known.1 (htable ▸ List.mem_map_of_mem hknown)
  rw [eq_comm, Text.capitals_eq_iff_alike hcapital]

/-- The kind that is found for a key is shown by the key in capitals. -/
theorem kindText_of_givenKind? {key : String} {kind : Asn1.Oid} (h : givenKind? key = some kind) :
    NameAttribute.kindText kind = Text.capitals key := by
  have htables : ∀ known ∈ givenKinds, NameAttribute.kindText known.2 = known.1 := by decide
  obtain ⟨known, hfound, rfl⟩ := Option.map_eq_some_iff.1 h
  have hkey := List.find?_some hfound
  rw [decide_eq_true_eq] at hkey
  rw [htables known (List.mem_of_find?_eq_some hfound), hkey]

/-! ### Parts -/

theorem exists_givenPart_iff {pair : String × String} :
    (∃ part, givenPart pair = .ok part) ↔ IsGiven pair.1 := by
  unfold givenPart
  cases hkind : givenKind? pair.1 with
  | none => simpa using givenKind?_eq_none_iff.1 hkind
  | some kind =>
    have hgiven : IsGiven pair.1 := by
      by_contra hnot
      rw [givenKind?_eq_none_iff.2 hnot] at hkind
      cases hkind
    simpa using hgiven

theorem givenPart_eq_error_iff {pair : String × String} {failure : DraftError} :
    givenPart pair = .error failure ↔ ¬IsGiven pair.1 ∧ failure = .unknownAttribute pair.1 := by
  rw [← givenKind?_eq_none_iff]
  unfold givenPart
  cases hkind : givenKind? pair.1 <;> simp [eq_comm]

/-- How a part is shown. -/
def shownPart (part : List NameAttribute) : String :=
  " + ".intercalate (part.map NameAttribute.display)

/-- The part that is made of a key and a value shows both. -/
theorem shownPart_of_givenPart {pair : String × String} {part : List NameAttribute}
    (h : givenPart pair = .ok part) : shownPart part = shownPair pair := by
  unfold givenPart at h
  cases hkind : givenKind? pair.1 with
  | none => simp [hkind] at h
  | some kind =>
    rw [hkind] at h
    cases h
    have hvalue : NameAttribute.valueText? ⟨Asn1.tagUtf8, Text.utf8 pair.2⟩ = some pair.2 := by
      simp [NameAttribute.valueText?, Text.ofUtf8?_utf8]
    simp only [shownPart, List.map_cons, List.map_nil, String.intercalate_singleton,
      NameAttribute.display, hvalue, kindText_of_givenKind? hkind, shownPair]

theorem map_shownPart {parts : List (List NameAttribute)} (h : pairs.mapM givenPart = .ok parts) :
    parts.map shownPart = pairs.map shownPair := by
  have hall := Steps.forall₂_of_mapM_eq_ok h
  clear h
  induction hall with
  | nil => rfl
  | cons hpart _ ih => rw [List.map_cons, List.map_cons, shownPart_of_givenPart hpart, ih]

/-! ### Names -/

/-- The parts stand in the opposite order, and are shown in the opposite order again. -/
theorem display_ofPairs (h : ofPairs pairs = .ok name) :
    name.display = ", ".intercalate (pairs.map shownPair) := by
  obtain ⟨parts, hparts, rfl⟩ := Steps.map_eq_ok_iff.1 h
  have hdisplay : display ⟨parts⟩ = ", ".intercalate (parts.reverse.map shownPart) := rfl
  rw [hdisplay, List.map_reverse, map_shownPart hparts, List.map_reverse, List.reverse_reverse]

theorem exists_ofPairs (h : ∀ pair ∈ pairs, IsGiven pair.1) :
    ∃ name, ofPairs pairs = .ok name := by
  have hparts : ∀ pair ∈ pairs.reverse, ∃ part, givenPart pair = .ok part :=
    fun pair hpair => exists_givenPart_iff.2 (h pair (List.mem_reverse.1 hpair))
  obtain ⟨parts, hparts⟩ := Steps.exists_mapM_eq_ok_iff.2 hparts
  exact ⟨⟨parts⟩, by rw [ofPairs, hparts]; rfl⟩

/-- The keys are looked at from the last one on, so the last that is unknown is reported. -/
theorem ofPairs_eq_error_iff {failure : DraftError} :
    ofPairs pairs = .error failure ↔ ∃ before key value after,
      pairs = before ++ (key, value) :: after ∧ ¬IsGiven key ∧
      (∀ pair ∈ after, IsGiven pair.1) ∧ failure = .unknownAttribute key := by
  have hsteps : ofPairs pairs = .error failure ↔
      pairs.reverse.mapM givenPart = .error failure := by
    rw [ofPairs]
    cases pairs.reverse.mapM givenPart <;> simp [Except.map]
  rw [hsteps, Steps.mapM_eq_error_iff]
  simp only [exists_givenPart_iff, givenPart_eq_error_iff]
  constructor
  · rintro ⟨after, ⟨key, value⟩, before, hsplit, hafter, hkey, hfailure⟩
    refine ⟨before.reverse, key, value, after.reverse, ?_, hkey, ?_, hfailure⟩
    · rw [← List.reverse_reverse pairs, hsplit]
      simp
    · simpa using hafter
  · rintro ⟨before, key, value, after, rfl, hkey, hafter, hfailure⟩
    exact ⟨after.reverse, (key, value), before.reverse, by simp, by simpa using hafter, hkey,
      hfailure⟩

end DistinguishedName

/-! ### Names in certificates -/

/-- What is read again as the subject of a certificate is what was written for it. -/
theorem Certificate.read_subject {c d : Certificate} (h : ofBytes? c.encode = some d) :
    c.body.subject.element.Readable ∧
      DistinguishedName.ofElement? c.body.subject.element = some d.body.subject := by
  obtain ⟨e, he, hd⟩ := Option.bind_eq_some_iff.1 h
  obtain ⟨hencode, hreadable⟩ := Element.encode_of_ofBytes? he
  obtain rfl : e = c.element := Element.encode_injective hencode
  obtain ⟨body, hbody, hread⟩ := parts_of_ofElement? hd
  have hparts := Element.around_inj hreadable.short hbody
  obtain rfl : c.body.element = body := (List.cons.inj hparts).1
  have hbodyReadable := readable_body hreadable
  rw [CertificateBody.element_eq] at hbodyReadable hread
  obtain ⟨items, serial, algorithm, issuer, validity, subject, key, rest, hitems, hrest, -, -, -, -,
    -, hsubject, -, -⟩ := CertificateBody.parts_of_ofElement? hread
  obtain rfl := Element.around_inj hbodyReadable.short hitems
  rw [CertificateBody.takeField_versionField, CertificateBody.required] at hrest
  obtain rfl : c.body.subject.element = subject := by simp_all
  exact ⟨hbodyReadable.of_around (by simp [CertificateBody.required]) rfl, hsubject⟩

namespace DistinguishedName

/-- A name that was given with known keys is shown as it was given, in the given order and with the
keys in capitals. This is so for the name itself, for what is read of its encoding, and for the
chain of a certificate that was written with the name as its subject and read again. If a key is not
known, the last such key is reported. -/
theorem given_names_are_shown_as_given (pairs : List (String × String)) :
    ((∀ pair ∈ pairs, IsGiven pair.1) →
      ∃ name, ofPairs pairs = .ok name ∧
        name.display = ", ".intercalate (pairs.map shownPair) ∧
        (name.element.Readable → ofBytes? name.element.encode = some name) ∧
        ∀ c d : Certificate, c.body.subject = name → Certificate.ofBytes? c.encode = some d →
          d.body.subject = name ∧ ∀ issuers,
            Chain.displayName ⟨d, issuers⟩ = ", ".intercalate (pairs.map shownPair)) ∧
    ((∃ pair ∈ pairs, ¬IsGiven pair.1) →
      ∃ before key value after, pairs = before ++ (key, value) :: after ∧ ¬IsGiven key ∧
        (∀ pair ∈ after, IsGiven pair.1) ∧ ofPairs pairs = .error (.unknownAttribute key)) := by
  constructor
  · intro h
    obtain ⟨name, hname⟩ := exists_ofPairs h
    have hdisplay := display_ofPairs hname
    refine ⟨name, hname, hdisplay, fun hreadable => ?_, fun c d hc hd => ?_⟩
    · rw [ofBytes?, Element.ofBytes?_encode hreadable, Option.bind_some,
        read_ofPairs hname hreadable]
    · obtain ⟨hreadable, hread⟩ := Certificate.read_subject hd
      rw [hc] at hreadable hread
      rw [read_ofPairs hname hreadable, Option.some.injEq] at hread
      refine ⟨hread.symm, fun issuers => ?_⟩
      rw [Chain.displayName, ← hread, hdisplay]
  · rintro ⟨pair, hpair, hunknown⟩
    cases hname : ofPairs pairs with
    | ok name =>
      obtain ⟨parts, hparts, -⟩ := Steps.map_eq_ok_iff.1 hname
      have hall := Steps.exists_mapM_eq_ok_iff.1 ⟨parts, hparts⟩ pair (List.mem_reverse.2 hpair)
      exact absurd (exists_givenPart_iff.1 hall) hunknown
    | error failure =>
      obtain ⟨before, key, value, after, hsplit, hkey, hafter, rfl⟩ :=
        ofPairs_eq_error_iff.1 hname
      exact ⟨before, key, value, after, hsplit, hkey, hafter, rfl⟩

/-- A key that comes twice, a value with a comma and one beyond ASCII are shown as they were given,
and of two keys that are not known the last one is reported. -/
theorem repeated_keys_are_shown_in_order :
    let pairs := [("cn", "Zoë"), ("O", "A, B"), ("o", "x")]
    let unknown := [("CN", "a"), ("DC", "b"), ("Street", "c"), ("O", "d")]
    let part (arc : Nat) (value : String) : List NameAttribute :=
      [⟨.ofArcs 2 5 [4, arc], ⟨Asn1.tagUtf8, Text.utf8 value⟩⟩]
    let name : DistinguishedName := ⟨[part 10 "x", part 10 "A, B", part 3 "Zoë"]⟩
    let c : Certificate := ⟨Signer.certificateBody ⟨[1]⟩ name (.rsa ⟨3233, 17⟩ 2753),
      KeyKind.rsa.signatureAlgorithm, ⟨0, [7]⟩⟩
    (∀ pair ∈ pairs, IsGiven pair.1) ∧ ofPairs pairs = .ok name ∧
      name.display = "CN=Zoë, O=A, B, O=x" ∧ Certificate.ofBytes? c.encode = some c ∧
      Chain.displayName ⟨c, []⟩ = "CN=Zoë, O=A, B, O=x" ∧
      (∃ pair ∈ unknown, ¬IsGiven pair.1) ∧
      ∃ before value after, unknown = before ++ ("Street", value) :: after ∧
        (∀ pair ∈ after, IsGiven pair.1) ∧
        ofPairs unknown = .error (.unknownAttribute "Street") := by
  intro pairs unknown part name c
  have hgiven : ∀ pair ∈ pairs, IsGiven pair.1 := by decide
  have htext : ", ".intercalate (pairs.map shownPair) = "CN=Zoë, O=A, B, O=x" := by decide
  have hname : ofPairs pairs = .ok name := rfl
  have hdecoded : Certificate.ofBytes? c.encode = some c := by decide +kernel
  have hunknown : ∃ pair ∈ unknown, ¬IsGiven pair.1 := by decide
  have hstreet : ofPairs unknown = .error (.unknownAttribute "Street") := rfl
  obtain ⟨found, hfound, hdisplay, -, hshown⟩ := (given_names_are_shown_as_given pairs).1 hgiven
  obtain rfl : name = found := Except.ok.inj (hname.symm.trans hfound)
  obtain ⟨before, key, value, after, hsplit, -, hafter, hfailure⟩ :=
    (given_names_are_shown_as_given unknown).2 hunknown
  obtain rfl : "Street" = key :=
    DraftError.unknownAttribute.inj (Except.error.inj (hstreet.symm.trans hfailure))
  exact ⟨hgiven, hname, hdisplay.trans htext, hdecoded,
    ((hshown c c rfl hdecoded).2 []).trans htext, hunknown, before, value, after, hsplit, hafter,
    hstreet⟩

end DistinguishedName

end JarSigners
