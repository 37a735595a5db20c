import Ringdrop.Core.CatalogNumbers

namespace Ringdrop.Catalog

open Library Program

variable {env : Env}

/-- The ticket of a frame is for the blob of the frame. -/
def WireFrame.Honest (f : WireFrame env) : Prop := f.ticket.hash = f.hash ∧ f.ticket.format = f.format

theorem decodeEntriesFrom_broken {fuel : ℕ} {s : RecvStream} (hfuel : s.bytes.length < fuel)
    (hbroken : s.broken.isSome) (entries : List CatalogEntry) : decodeEntriesFrom env fuel s ≠ .ok entries := by
  induction fuel generalizing s entries with
  | zero => omega
  | succ fuel ih =>
    obtain ⟨bytes, broken⟩ := s
    obtain ⟨e, he⟩ := Option.isSome_iff_exists.mp hbroken
    dsimp only at hfuel he
    subst he
    intro h
    rw [decodeEntriesFrom] at h
    obtain ⟨probe, hprobe, h⟩ := bind_eq_ok.mp h
    rw [readContext_eq_ok] at hprobe
    cases bytes with
    | nil => cases hprobe
    | cons b bytes =>
      obtain rfl := Except.ok.inj hprobe
      obtain ⟨⟨entry, s'⟩, hentry, h⟩ := bind_eq_ok.mp h
      obtain ⟨rest, hrest, _⟩ := bind_eq_ok.mp h
      -- the probe is not consumed, so what is left is what follows the frame
      obtain ⟨f, _, hs⟩ := decodeEntry_eq_ok.mp hentry
      obtain ⟨hbytes, hsome⟩ := RecvStream.mk.inj hs
      have hlength := congrArg List.length hbytes
      rw [List.length_append, List.length_cons] at hlength
      have hpos : 0 < f.bytes.length := List.length_pos_of_ne_nil (by simp [WireFrame.bytes])
      rw [List.length_cons] at hfuel
      exact ih (by omega) (by rw [← hsome]; rfl) rest hrest

theorem decodeEntries_ok_iff {s : RecvStream} {entries : List CatalogEntry} :
    decodeEntries env s = .ok entries ↔ s.broken = none ∧ ∃ frames : List (WireFrame env),
      s.bytes = frames.flatMap WireFrame.bytes ∧ entries = frames.map WireFrame.entry := by
  obtain ⟨bytes, broken⟩ := s
  cases broken with
  | none =>
    rw [decodeEntries_eq_ok, framed_frameOf_iff]
    exact (and_iff_right rfl).symm
  | some e =>
    have hnot : decodeEntriesFrom env (bytes.length + 1) ⟨bytes, some e⟩ ≠ .ok entries :=
      decodeEntriesFrom_broken (Nat.lt_succ_self _) rfl entries
    constructor
    · intro h
      exact absurd h hnot
    · intro h
      cases h.1

/-- Every entry that is read carries a ticket for its own blob exactly where the stream
is no sequence of frames with one among them whose ticket is for another. -/
theorem decodeEntries_tickets_iff (env : Env) (s : RecvStream) :
    (∀ entries, decodeEntries env s = .ok entries →
      ∀ e ∈ entries, e.ticket.hash = e.hash ∧ e.ticket.format = e.format) ↔
    (s.broken.isSome ∨ ∀ frames : List (WireFrame env), s.bytes = frames.flatMap WireFrame.bytes →
      ∀ f ∈ frames, f.Honest) := by
  constructor
  · intro h
    cases hbroken : s.broken with
    | some e => exact .inl rfl
    | none =>
      right
      intro frames hbytes f hf
      have hdecode := decodeEntries_ok_iff.mpr ⟨hbroken, frames, hbytes, rfl⟩
      exact h _ hdecode f.entry (List.mem_map_of_mem hf)
  · intro h entries hdecode e he
    obtain ⟨hbroken, frames, hbytes, rfl⟩ := decodeEntries_ok_iff.mp hdecode
    obtain ⟨f, hf, rfl⟩ := List.mem_map.mp he
    rcases h with hsome | hhonest
    · rw [hbroken] at hsome
      cases hsome
    · exact hhonest frames hbytes f hf

/-- An entry of another blob than the one its ticket is for. -/
theorem decodeEntries_tickets_forged : ¬ ∀ (env : Env) (s : RecvStream) (entries : List CatalogEntry),
    decodeEntries env s = .ok entries → ∀ e ∈ entries, e.ticket.hash = e.hash ∧ e.ticket.format = e.format := by
  intro h
  have hfits : (frame (.fromByte 2) .raw "notes" (namedUri "notes") none none).2 = true := by decide +kernel
  let f : WireFrame (.plain [namedWire "notes"]) :=
    wireFrame none none hfits (namedTicket "notes") (fromUri_namedUri "notes")
  have hdecode : decodeEntries (.plain [namedWire "notes"]) ⟨f.bytes, none⟩ = .ok [f.entry] :=
    decodeEntries_ok_iff.mpr ⟨rfl, [f], by simp, rfl⟩
  obtain ⟨hhash, _⟩ := h _ _ _ hdecode f.entry (by simp)
  change Hash.fromByte 1 = .fromByte 2 at hhash
  exact absurd hhash (by decide)

end Ringdrop.Catalog
