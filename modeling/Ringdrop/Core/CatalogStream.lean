import Ringdrop.Core.Catalog
import Ringdrop.Library.Frames

namespace Ringdrop

open Library

namespace Catalog

theorem readContext_eq_ok {α : Type} {m : String} {x : Except Error α} {v : α} :
    readContext m x = .ok v ↔ x = .ok v := by
  cases x with
  | error e => simp [readContext]
  | ok a => simp [readContext]

theorem readLengthPrefixed_eq_ok {s s' : RecvStream} {field : String} {x : Bytes} :
    readLengthPrefixed s field = .ok (x, s') ↔
      x.length < 2 ^ 16 ∧ s = ⟨toLeBytes 2 x.length ++ x ++ s'.bytes, s'.broken⟩ := by
  unfold readLengthPrefixed
  constructor
  · intro h
    obtain ⟨⟨len, s₁⟩, hlen, hdata⟩ := bind_eq_ok.mp h
    obtain ⟨hlen2, rfl⟩ := RecvStream.readExact_eq_ok.mp (readContext_eq_ok.mp hlen)
    obtain ⟨hx, rfl⟩ := RecvStream.readExact_eq_ok.mp (readContext_eq_ok.mp hdata)
    have hlt := ofLeBytes_lt len
    rw [hlen2] at hlt
    have hcode : toLeBytes 2 x.length = len := by rw [hx, ← hlen2, toLeBytes_ofLeBytes]
    rw [hcode, List.append_assoc]
    exact ⟨by omega, rfl⟩
  · intro h
    obtain ⟨hlt, rfl⟩ := h
    refine bind_eq_ok.mpr ⟨(toLeBytes 2 x.length, ⟨x ++ s'.bytes, s'.broken⟩), ?_, ?_⟩
    · rw [readContext_eq_ok, RecvStream.readExact_eq_ok, List.append_assoc]
      exact ⟨length_toLeBytes 2 x.length, rfl⟩
    · rw [readContext_eq_ok, RecvStream.readExact_eq_ok, ofLeBytes_toLeBytes]
      exact ⟨(Nat.mod_eq_of_lt (by omega)).symm, rfl⟩

theorem readString_eq_ok {s s' : RecvStream} {field text : String} :
    readString s field = .ok (text, s') ↔ (Utf8.toBytes text).length < 2 ^ 16 ∧
      s = ⟨toLeBytes 2 (Utf8.toBytes text).length ++ Utf8.toBytes text ++ s'.bytes, s'.broken⟩ := by
  unfold readString
  constructor
  · intro h
    obtain ⟨⟨x, s₁⟩, hx, htext⟩ := bind_eq_ok.mp h
    cases hu : Utf8.fromUtf8 x with
    | none => simp [hu] at htext
    | some t =>
      simp only [hu] at htext
      obtain ⟨rfl, rfl⟩ := Prod.mk.inj (Except.ok.inj htext)
      obtain rfl := Utf8.fromUtf8_eq_some_iff.mp hu
      exact readLengthPrefixed_eq_ok.mp hx
  · intro h
    refine bind_eq_ok.mpr ⟨_, readLengthPrefixed_eq_ok.mpr h, ?_⟩
    dsimp only
    rw [show Utf8.fromUtf8 (Utf8.toBytes text) = some text from Utf8.fromUtf8_eq_some_iff.mpr rfl]

theorem parseFormatByte_eq_ok {b : UInt8} {format : BlobFormat} :
    parseFormatByte b = .ok format ↔ b = formatByte format := by
  unfold parseFormatByte
  split_ifs with h0 h1
  · subst h0
    cases format <;> simp [formatByte]
  · subst h1
    cases format <;> simp [formatByte]
  · cases format <;> simp [formatByte, h0, h1]

def readCount (bs : Bytes) : Option ℕ :=
  if ofLeBytes bs = 2 ^ 32 - 1 then none else some (ofLeBytes bs)

def readSize (bs : Bytes) : Option UInt64 :=
  if ofLeBytes bs = 2 ^ 64 - 1 then none else some (UInt64.ofNat (ofLeBytes bs))

structure WireFrame (env : Env) where
  hash : Hash
  format : BlobFormat
  name : String
  name_fits : (Utf8.toBytes name).length < 2 ^ 16
  ticketText : String
  ticket_fits : (Utf8.toBytes ticketText).length < 2 ^ 16
  ticket : ShareTicket
  parsed : ShareTicket.fromUri env ticketText = .ok ticket
  size : Bytes
  size_length : size.length = 8
  count : Bytes
  count_length : count.length = 4

namespace WireFrame

variable {env : Env}

def bytes (f : WireFrame env) : Bytes :=
  f.hash.asBytes ++ formatByte f.format ::
    (toLeBytes 2 (Utf8.toBytes f.name).length ++ Utf8.toBytes f.name ++
      (toLeBytes 2 (Utf8.toBytes f.ticketText).length ++ Utf8.toBytes f.ticketText ++ (f.size ++ f.count)))

def entry (f : WireFrame env) : CatalogEntry where
  hash := f.hash
  format := f.format
  name := f.name
  ticket := f.ticket
  fileCount := readCount f.count
  totalSize := readSize f.size

end WireFrame

theorem decodeEntry_eq_ok {env : Env} {s s' : RecvStream} {e : CatalogEntry} :
    decodeEntry env s = .ok (e, s') ↔
      ∃ f : WireFrame env, e = f.entry ∧ s = ⟨f.bytes ++ s'.bytes, s'.broken⟩ := by
  unfold decodeEntry
  constructor
  · intro h
    rw [bind_eq_ok] at h
    obtain ⟨⟨hash, s₁⟩, hhash, h⟩ := h
    rw [bind_eq_ok] at h
    obtain ⟨⟨fmt, s₂⟩, hfmt, h⟩ := h
    rw [bind_eq_ok] at h
    obtain ⟨format, hformat, h⟩ := h
    rw [bind_eq_ok] at h
    obtain ⟨⟨name, s₃⟩, hname, h⟩ := h
    rw [bind_eq_ok] at h
    obtain ⟨⟨text, s₄⟩, htext, h⟩ := h
    rw [bind_eq_ok] at h
    obtain ⟨ticket, hticket, h⟩ := h
    rw [bind_eq_ok] at h
    obtain ⟨⟨size, s₅⟩, hsize, h⟩ := h
    rw [bind_eq_ok] at h
    obtain ⟨⟨count, s₆⟩, hcount, h⟩ := h
    rw [readContext_eq_ok, RecvStream.readExact_eq_ok] at hhash hfmt hsize hcount
    rw [readString_eq_ok] at hname htext
    obtain ⟨hlen, hs⟩ := hhash
    obtain ⟨hlen1, hs₁⟩ := hfmt
    obtain ⟨hnamefits, hs₂⟩ := hname
    obtain ⟨htextfits, hs₃⟩ := htext
    obtain ⟨hlen8, hs₄⟩ := hsize
    obtain ⟨hlen4, hs₅⟩ := hcount
    dsimp only at h
    rw [dif_pos hlen] at h
    obtain ⟨he, hs₆⟩ := Prod.mk.inj (Except.ok.inj h)
    obtain ⟨b, rfl⟩ := List.length_eq_one_iff.mp hlen1
    have hb : b = formatByte format := parseFormatByte_eq_ok.mp hformat
    refine ⟨⟨⟨hash, hlen⟩, format, name, hnamefits, text, htextfits, ticket, hticket, size, hlen8, count, hlen4⟩,
      he.symm, ?_⟩
    rw [hs, hs₁, hs₂, hs₃, hs₄, hs₅, hs₆, WireFrame.bytes, hb]
    simp only [List.append_assoc, List.cons_append, List.nil_append]
  · intro h
    obtain ⟨f, rfl, rfl⟩ := h
    have hread {x rest : Bytes} {n : ℕ} (m : String) (hx : x.length = n) :
        readContext m (RecvStream.readExact ⟨x ++ rest, s'.broken⟩ n) = .ok (x, ⟨rest, s'.broken⟩) :=
      readContext_eq_ok.mpr (RecvStream.readExact_eq_ok.mpr ⟨hx, rfl⟩)
    have htext {text field : String} {rest : Bytes} (hfits : (Utf8.toBytes text).length < 2 ^ 16) :
        readString ⟨toLeBytes 2 (Utf8.toBytes text).length ++ Utf8.toBytes text ++ rest, s'.broken⟩ field =
          .ok (text, ⟨rest, s'.broken⟩) :=
      readString_eq_ok.mpr ⟨hfits, rfl⟩
    have hbytes : f.bytes ++ s'.bytes = f.hash.asBytes ++ ([formatByte f.format] ++
        (toLeBytes 2 (Utf8.toBytes f.name).length ++ Utf8.toBytes f.name ++
          (toLeBytes 2 (Utf8.toBytes f.ticketText).length ++ Utf8.toBytes f.ticketText ++
            (f.size ++ (f.count ++ s'.bytes))))) := by
      simp [WireFrame.bytes]
    rw [hbytes]
    refine bind_eq_ok.mpr ⟨_, hread _ f.hash.length_eq, bind_eq_ok.mpr ⟨_, hread _ rfl,
      bind_eq_ok.mpr ⟨f.format, parseFormatByte_eq_ok.mpr rfl, bind_eq_ok.mpr ⟨_, htext f.name_fits,
        bind_eq_ok.mpr ⟨_, htext f.ticket_fits, bind_eq_ok.mpr ⟨f.ticket, f.parsed,
          bind_eq_ok.mpr ⟨_, hread _ f.size_length, bind_eq_ok.mpr ⟨_, hread _ f.count_length, ?_⟩⟩⟩⟩⟩⟩⟩⟩
    exact dif_pos f.hash.length_eq

def decodeBytes (env : Env) (bs : Bytes) : Except Error (CatalogEntry × Bytes) :=
  match decodeEntry env ⟨bs, none⟩ with
  | .ok (e, s) => .ok (e, s.bytes)
  | .error e => .error e

def FrameOf (env : Env) (e : CatalogEntry) (x : Bytes) : Prop :=
  ∃ f : WireFrame env, e = f.entry ∧ x = f.bytes

theorem delimits_decodeBytes (env : Env) : Delimits (FrameOf env) (decodeBytes env) where
  decode_append := by
    intro e x hx rest
    obtain ⟨f, rfl, rfl⟩ := hx
    have h : decodeEntry env ⟨f.bytes ++ rest, none⟩ = .ok (f.entry, ⟨rest, none⟩) :=
      decodeEntry_eq_ok.mpr ⟨f, rfl, rfl⟩
    rw [decodeBytes, h]
  of_decode := by
    intro s e rest h
    unfold decodeBytes at h
    split at h
    next e' s' hd =>
      obtain ⟨f, rfl, hs⟩ := decodeEntry_eq_ok.mp hd
      obtain ⟨rfl, rfl⟩ := Prod.mk.inj (Except.ok.inj h)
      exact ⟨f.bytes, ⟨f, rfl, rfl⟩, (RecvStream.mk.inj hs).1⟩
    next e' hd => cases h
  ne_nil := by
    intro e x hx
    obtain ⟨f, -, rfl⟩ := hx
    simp [WireFrame.bytes]

theorem decodeEntriesFrom_eq (env : Env) (fuel : ℕ) (bs : Bytes) :
    decodeEntriesFrom env fuel ⟨bs, none⟩ = decodeAll (decodeBytes env) fuel bs := by
  induction fuel generalizing bs with
  | zero => rfl
  | succ fuel ih =>
    cases bs with
    | nil => rfl
    | cons b bs =>
      have hprobe : readContext "reading entry probe" (RecvStream.readByte ⟨b :: bs, none⟩) =
        .ok (some (b, ⟨bs, none⟩)) := rfl
      rw [decodeEntriesFrom, hprobe, decodeAll, decodeBytes]
      cases hd : decodeEntry env ⟨b :: bs, none⟩ with
      | error e => simp [bind, Except.bind]
      | ok r =>
        obtain ⟨e, s⟩ := r
        obtain ⟨f, -, hs⟩ := decodeEntry_eq_ok.mp hd
        have hrest := ih s.bytes
        rw [(RecvStream.mk.inj hs).2] at hrest
        simp only [bind, Except.bind]
        rw [← hrest]
        cases decodeEntriesFrom env fuel s <;> rfl

theorem decodeEntries_eq_ok {env : Env} {bs : Bytes} {entries : List CatalogEntry} :
    decodeEntries env ⟨bs, none⟩ = .ok entries ↔ Framed (FrameOf env) entries bs := by
  rw [decodeEntries, decodeEntriesFrom_eq]
  exact decodeAll_eq_ok_iff (delimits_decodeBytes env) (Nat.lt_succ_self _)

inductive Reads (env : Env) : RecvStream → List CatalogEntry → RecvStream → Prop
  | nil (s : RecvStream) : Reads env s [] s
  | cons {s s' s'' : RecvStream} {e : CatalogEntry} {entries : List CatalogEntry} :
      decodeEntry env s = .ok (e, s') → Reads env s' entries s'' → Reads env s (e :: entries) s''

theorem reads_of_framed {env : Env} {entries : List CatalogEntry} {bs : Bytes}
    (h : Framed (FrameOf env) entries bs) : Reads env ⟨bs, none⟩ entries ⟨[], none⟩ := by
  induction h with
  | nil => exact .nil _
  | cons hx _ ih =>
    obtain ⟨f, rfl, rfl⟩ := hx
    exact .cons (decodeEntry_eq_ok.mpr ⟨f, rfl, rfl⟩) ih

end Catalog

end Ringdrop
