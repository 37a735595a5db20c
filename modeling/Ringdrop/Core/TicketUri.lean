import Ringdrop.Core.Ticket

namespace Ringdrop.ShareTicket

open Library

/-- The same characters but for the case of ASCII letters. -/
def SameButCase (cs ds : List Char) : Prop := List.Forall₂ (fun c d ↦ c.toUpper = d.toUpper) cs ds

/-- `to_uppercase` on ASCII. -/
def AsciiUppercase (env : Env) : Prop := ∀ c : Char, c.toNat < 128 → env.toUppercase c = [c.toUpper]

def symbols : List Char := "ABCDEFGHIJKLMNOPQRSTUVWXYZabcdefghijklmnopqrstuvwxyz234567".toList

/-- The text is a URI of a ticket: its payload, in plain ASCII, is the canonical base32 of the
JSON of a ticket but for case. -/
def IsUri (env : Env) (s : String) : Prop :=
  ∃ payload bytes wire, s.toList = uriPrefix ++ payload ∧ (∀ c ∈ payload, c ∈ symbols) ∧
    payload.map Char.toUpper = Base32.encode bytes ∧ env.ticketFromJson bytes = .ok wire

section Case

theorem toUpper_toLower_of_alphabet {c : Char} (hc : c ∈ Base32.alphabet) : c.toLower.toUpper = c := by
  have hall : (Base32.alphabet.all fun c ↦ c.toLower.toUpper == c) = true := by decide
  exact beq_iff_eq.mp (List.all_eq_true.mp hall c hc)

/-- Only ASCII letters have another case here. -/
theorem toNat_of_toUpper_mem {c : Char} (hc : c.toUpper ∈ Base32.alphabet) : c.toNat < 128 := by
  have hall : (Base32.alphabet.all fun c ↦ decide (c.toNat < 128)) = true := by decide
  by_cases hlower : 'a'.val ≤ c.val ∧ c.val ≤ 'z'.val
  · have hz : c.toNat ≤ 122 := UInt32.le_iff_toNat_le.mp hlower.2
    omega
  · have hsame : c.toUpper = c := dif_neg hlower
    rw [hsame] at hc
    exact of_decide_eq_true (List.all_eq_true.mp hall c hc)

theorem toNat_of_mem_symbols {c : Char} (hc : c ∈ symbols) : c.toNat < 128 := by
  have hall : (symbols.all fun c ↦ decide (c.toNat < 128)) = true := by decide
  exact of_decide_eq_true (List.all_eq_true.mp hall c hc)

theorem mem_symbols_of_toUpper_mem {c : Char} (hc : c.toUpper ∈ Base32.alphabet) : c ∈ symbols := by
  have hall : ∀ n < 128, (Char.ofNat n).toUpper ∈ Base32.alphabet → Char.ofNat n ∈ symbols := by decide +kernel
  have hchar := hall c.toNat (toNat_of_toUpper_mem hc)
  rw [Char.ofNat_toNat] at hchar
  exact hchar hc

theorem toUpper_toUpper (c : Char) : c.toUpper.toUpper = c.toUpper := by
  by_cases hlower : 'a'.val ≤ c.val ∧ c.val ≤ 'z'.val
  · have hall : ∀ n < 128, (Char.ofNat n).toUpper.toUpper = (Char.ofNat n).toUpper := by decide +kernel
    have hz : c.toNat ≤ 122 := UInt32.le_iff_toNat_le.mp hlower.2
    have hchar := hall c.toNat (by omega)
    rwa [Char.ofNat_toNat] at hchar
  · have hsame : c.toUpper = c := dif_neg hlower
    rw [hsame, hsame]

variable {env : Env} {payload : List Char}

theorem flatMap_toUppercase (hup : AsciiUppercase env) (h : ∀ c ∈ payload, c.toNat < 128) :
    payload.flatMap env.toUppercase = payload.map Char.toUpper := by
  induction payload with
  | nil => rfl
  | cons c cs ih =>
    have hcs := ih fun d hd ↦ h d (List.mem_cons_of_mem c hd)
    rw [List.flatMap_cons, hup c (h c List.mem_cons_self), hcs, List.map_cons, List.singleton_append]

theorem map_toUpper_of_sameButCase {cs ds : List Char} (h : SameButCase (cs.map Char.toLower) ds)
    (hcs : ∀ c ∈ cs, c ∈ Base32.alphabet) : ds.map Char.toUpper = cs := by
  induction cs generalizing ds with
  | nil =>
    cases h
    rfl
  | cons c cs ih =>
    cases h with
    | @cons _ d _ ds hcd hrest =>
      have hc : d.toUpper = c := by rw [← hcd, toUpper_toLower_of_alphabet (hcs c List.mem_cons_self)]
      rw [List.map_cons, hc, ih hrest fun e he ↦ hcs e (List.mem_cons_of_mem c he)]

end Case

section Uris

variable {env : Env}

theorem fromUri_of_encode {payload : List Char} {bytes : Bytes} {wire : TicketWire}
    (hdecode : payload.flatMap env.toUppercase = Base32.encode bytes) (hjson : env.ticketFromJson bytes = .ok wire) :
    fromUri env (String.ofList (uriPrefix ++ payload)) = .ok ⟨wire.addr, wire.hash, wire.format, wire.name⟩ := by
  unfold fromUri
  rw [String.toList_ofList, if_pos (by simp), List.drop_left, hdecode, Base32.decode_encode]
  simp only [hjson]

/-- A ticket has a URI, and is read back from it in whatever case the letters of the payload are. -/
theorem fromUri_of_sameButCase {t : ShareTicket} (hup : AsciiUppercase env)
    (hjson : ∃ json, env.ticketToJson ⟨t.addr, t.hash, t.format, t.name⟩ = .ok json ∧
      env.ticketFromJson (Utf8.toBytes json) = .ok ⟨t.addr, t.hash, t.format, t.name⟩) :
    ∃ payload, t.toUri env = .ok (String.ofList (uriPrefix ++ payload)) ∧
      ∀ payload', SameButCase payload payload' → fromUri env (String.ofList (uriPrefix ++ payload')) = .ok t := by
  obtain ⟨json, hto, hfrom⟩ := hjson
  refine ⟨(Base32.encode (Utf8.toBytes json)).map Char.toLower, by simp only [toUri, hto], ?_⟩
  intro payload' hcase
  have halphabet : ∀ c ∈ Base32.encode (Utf8.toBytes json), c ∈ Base32.alphabet :=
    fun c hc ↦ Base32.mem_alphabet_of_mem_encode hc
  have hupper : payload'.map Char.toUpper = Base32.encode (Utf8.toBytes json) :=
    map_toUpper_of_sameButCase hcase halphabet
  have hascii : ∀ c ∈ payload', c.toNat < 128 := by
    intro c hc
    refine toNat_of_toUpper_mem (halphabet _ ?_)
    rw [← hupper]
    exact List.mem_map_of_mem hc
  exact fromUri_of_encode ((flatMap_toUppercase hup hascii).trans hupper) hfrom

theorem encode_of_fromUri {s : String} {t : ShareTicket} (h : fromUri env s = .ok t) :
    ∃ payload bytes wire, s.toList = uriPrefix ++ payload ∧ payload.flatMap env.toUppercase = Base32.encode bytes ∧
      env.ticketFromJson bytes = .ok wire := by
  unfold fromUri at h
  split at h
  · rename_i hprefix
    obtain ⟨payload, hs⟩ := List.isPrefixOf_iff_prefix.mp hprefix
    rw [← hs, List.drop_left] at h
    split at h
    · cases h
    · rename_i bytes hdecode
      split at h
      · cases h
      · rename_i wire hwire
        exact ⟨payload, bytes, wire, hs.symm, Base32.eq_encode_of_decode hdecode, hwire⟩
  · cases h

/-- Only URIs in plain ASCII are accepted, but for payloads with other characters whose
Unicode upper case is the canonical base32 of the JSON of a ticket. -/
theorem isUri_of_fromUri_iff (hup : AsciiUppercase env) (s : String) :
    (∀ t, fromUri env s = .ok t → IsUri env s) ↔
      ∀ payload, s.toList = uriPrefix ++ payload → (∀ c ∈ payload, c.toNat < 128) ∨
        ∀ bytes wire, payload.flatMap env.toUppercase = Base32.encode bytes → env.ticketFromJson bytes ≠ .ok wire := by
  constructor
  · intro h payload hs
    by_contra hnot
    simp only [not_or, not_forall, not_not] at hnot
    obtain ⟨⟨c, hc, hother⟩, bytes, wire, hencode, hwire⟩ := hnot
    have hok := fromUri_of_encode hencode hwire
    rw [← hs, String.ofList_toList] at hok
    obtain ⟨payload', -, -, hs', hascii, -⟩ := h _ hok
    obtain rfl : payload = payload' := List.append_cancel_left (hs.symm.trans hs')
    exact hother (toNat_of_mem_symbols (hascii c hc))
  · intro h t ht
    obtain ⟨payload, bytes, wire, hs, hencode, hwire⟩ := encode_of_fromUri ht
    have hascii : ∀ c ∈ payload, c.toNat < 128 :=
      (h payload hs).resolve_right fun hnone ↦ hnone bytes wire hencode hwire
    rw [flatMap_toUppercase hup hascii] at hencode
    refine ⟨payload, bytes, wire, hs, fun c hc ↦ mem_symbols_of_toUpper_mem ?_, hencode, hwire⟩
    have hmem : c.toUpper ∈ Base32.encode bytes := by
      rw [← hencode]
      exact List.mem_map_of_mem hc
    exact Base32.mem_alphabet_of_mem_encode hmem

end Uris

section Dotless

theorem asciiUppercase_plain (tickets : List TicketWire) : AsciiUppercase (.plain tickets) := fun _ _ ↦ rfl

theorem ticketFromJson_plain (w : TicketWire) :
    (Env.plain [w]).ticketFromJson (Utf8.toBytes (Env.ticketJson w)) = .ok w := by
  simp [Env.plain]

theorem named_json (name : String) : ∃ json,
    (Env.plain [namedWire name]).ticketToJson ⟨(namedTicket name).addr, (namedTicket name).hash,
      (namedTicket name).format, (namedTicket name).name⟩ = .ok json ∧
    (Env.plain [namedWire name]).ticketFromJson (Utf8.toBytes json) = .ok ⟨(namedTicket name).addr,
      (namedTicket name).hash, (namedTicket name).format, (namedTicket name).name⟩ :=
  ⟨Env.ticketJson (namedWire name), rfl, ticketFromJson_plain (namedWire name)⟩

theorem fromUri_of_sameButCase_notes : ∃ payload,
    (namedTicket "notes").toUri (.plain [namedWire "notes"]) = .ok (String.ofList (uriPrefix ++ payload)) ∧
    fromUri (.plain [namedWire "notes"]) (String.ofList (uriPrefix ++ payload.map Char.toUpper)) =
      .ok (namedTicket "notes") := by
  obtain ⟨payload, huri, hread⟩ := fromUri_of_sameButCase (asciiUppercase_plain [namedWire "notes"])
    (named_json "notes")
  refine ⟨payload, huri, hread _ ?_⟩
  apply List.forall₂_map_right_iff.mpr
  exact List.forall₂_same.mpr fun c _ ↦ (toUpper_toUpper c).symm

def dotlessEnv (name : String) : Env :=
  { Env.plain [namedWire name] with toUppercase := fun c ↦ if c = 'ı' then ['I'] else [c.toUpper] }

theorem asciiUppercase_dotless (name : String) : AsciiUppercase (dotlessEnv name) := by
  intro c hc
  refine if_neg ?_
  rintro rfl
  exact absurd hc (by decide)

def dotless (c : Char) : Char := if c = 'I' then 'ı' else c.toLower

def dotlessUri (name : String) : String :=
  String.ofList (uriPrefix ++ (Base32.encode (Utf8.toBytes (Env.ticketJson (namedWire name)))).map dotless)

theorem isUri_of_fromUri_iff_namedUri : IsUri (.plain [namedWire "notes"]) (namedUri "notes") := by
  have hlower : (Base32.alphabet.all fun c ↦ decide (c.toLower.toNat < 128)) = true := by decide
  have hiff := isUri_of_fromUri_iff (asciiUppercase_plain [namedWire "notes"]) (namedUri "notes")
  refine hiff.mpr (fun payload hpayload ↦ .inl ?_) (namedTicket "notes") (fromUri_namedUri "notes")
  rw [namedUri, String.toList_ofList] at hpayload
  intro c hc
  rw [← List.append_cancel_left hpayload] at hc
  obtain ⟨d, hd, rfl⟩ := List.mem_map.mp hc
  exact of_decide_eq_true (List.all_eq_true.mp hlower d (Base32.mem_alphabet_of_mem_encode hd))

theorem fromUri_dotlessUri (name : String) :
    fromUri (dotlessEnv name) (dotlessUri name) = .ok (namedTicket name) := by
  have hupper : (Base32.alphabet.all fun c ↦ (dotlessEnv name).toUppercase (dotless c) == [c]) = true := rfl
  have hencode : ((Base32.encode (Utf8.toBytes (Env.ticketJson (namedWire name)))).map dotless).flatMap
      (dotlessEnv name).toUppercase = Base32.encode (Utf8.toBytes (Env.ticketJson (namedWire name))) := by
    have halphabet : ∀ c ∈ Base32.encode (Utf8.toBytes (Env.ticketJson (namedWire name))), c ∈ Base32.alphabet :=
      fun c hc ↦ Base32.mem_alphabet_of_mem_encode hc
    generalize Base32.encode (Utf8.toBytes (Env.ticketJson (namedWire name))) = cs at halphabet ⊢
    rw [List.flatMap_map]
    induction cs with
    | nil => rfl
    | cons c cs ih =>
      have hc := beq_iff_eq.mp (List.all_eq_true.mp hupper c (halphabet c List.mem_cons_self))
      have hcs := ih fun d hd ↦ halphabet d (List.mem_cons_of_mem c hd)
      rw [List.flatMap_cons, hcs, hc, List.singleton_append]
  have hjson : (dotlessEnv name).ticketFromJson (Utf8.toBytes (Env.ticketJson (namedWire name))) = .ok (namedWire name) := by
    simp only [dotlessEnv]
    exact ticketFromJson_plain (namedWire name)
  unfold dotlessUri
  have hread := fromUri_of_encode hencode hjson
  exact hread

/-- A ticket is read from a text with dotless i's. -/
theorem fromUri_accepts_dotless : AsciiUppercase (dotlessEnv "notes") ∧
    ∃ s t, fromUri (dotlessEnv "notes") s = .ok t ∧ ¬ IsUri (dotlessEnv "notes") s := by
  refine ⟨asciiUppercase_dotless "notes", dotlessUri "notes", namedTicket "notes", fromUri_dotlessUri "notes", ?_⟩
  rintro ⟨payload, bytes, wire, hpayload, hsymbols, -, -⟩
  rw [dotlessUri, String.toList_ofList] at hpayload
  have hmem : 'I' ∈ Base32.encode (Utf8.toBytes (Env.ticketJson (namedWire "notes"))) := by decide +kernel
  have hdotless : 'ı' ∈ payload := by
    rw [← List.append_cancel_left hpayload]
    exact List.mem_map.mpr ⟨'I', hmem, rfl⟩
  exact absurd (hsymbols 'ı' hdotless) (by decide)

end Dotless

end Ringdrop.ShareTicket
