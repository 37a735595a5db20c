import Ringdrop.Core.Durations
import Ringdrop.Daemon.Handlers.Membership
import Ringdrop.Daemon.Protocol

namespace Ringdrop

open Library Program Std Handlers

/-- Clocks keep whole seconds in a signed 64-bit number, and nanoseconds. -/
def SystemTime.Representable (t : SystemTime) : Prop :=
  -(2 ^ 63) * nanosPerSec ≤ t ∧ t < 2 ^ 63 * nanosPerSec

instance : DecidablePred SystemTime.Representable := fun _ ↦ inferInstanceAs (Decidable (_ ∧ _))

def SystemTime.checkedAdd (t : SystemTime) (d : Duration) : Option SystemTime :=
  if SystemTime.Representable (t + d.asNanos) then some (t + d.asNanos) else none

namespace Cli

inductive RingCmd
  | new (name : String)
  | list
  | add (ring peer : String) (expires : Option Duration)
  | remove (ring peer : String)
  | members (ring : String)

def unixSecsAfter (now : SystemTime) (duration : Duration) : Except Error UInt64 :=
  match SystemTime.checkedAdd now duration with
  | none => .error (.msg "expiry is too far in the future")
  | some instant =>
    if instant < 0 then
      .error ((Error.msg "second time provided was later than self").context "system clock is before the Unix epoch")
    else .ok (UInt64.ofNat (instant / nanosPerSec).toNat)

def RingCmd.op (now : SystemTime) : RingCmd → Except Error Op
  | new name => .ok (.ringNew name)
  | list => .ok .ringList
  | add ring peer none => .ok (.ringAdd ring peer none)
  | add ring peer (some duration) => do return .ringAdd ring peer (some (← unixSecsAfter now duration))
  | remove ring peer => .ok (.ringRemove ring peer)
  | members ring => .ok (.ringMembers ring)

end Cli

section Seconds

theorem representable_iff (z : ℤ) : SystemTime.Representable z ↔
    -9223372036854775808000000000 ≤ z ∧ z < 9223372036854775808000000000 := by
  have hmax : 2 ^ 63 * nanosPerSec = 9223372036854775808000000000 := by decide
  have hmin : -(2 ^ 63) * nanosPerSec = -9223372036854775808000000000 := by decide
  unfold SystemTime.Representable
  rw [hmax, hmin]

def epochInstant (t : UInt64) : SystemTime := t.toNat * nanosPerSec

theorem representable_epochInstant (t : UInt64) : SystemTime.Representable (epochInstant t) ↔ t.toNat < 2 ^ 63 := by
  have hinstant : epochInstant t = (t.toNat : ℤ) * 1000000000 := rfl
  rw [hinstant, representable_iff]
  omega

theorem epochPlus_of_representable {t : UInt64} (h : SystemTime.Representable (epochInstant t)) :
    epochPlus t = some (epochInstant t) := if_pos ((representable_epochInstant t).mp h)

theorem epochPlus_of_not_representable {t : UInt64} (h : ¬ SystemTime.Representable (epochInstant t)) :
    epochPlus t = none := if_neg fun hlt ↦ h ((representable_epochInstant t).mpr hlt)

/-- The nanoseconds after the last whole second are dropped. -/
theorem epochInstant_ofNat {z : ℤ} (h : 0 ≤ z) (hrep : SystemTime.Representable z) :
    z - nanosPerSec < epochInstant (UInt64.ofNat (z / nanosPerSec).toNat) ∧
      epochInstant (UInt64.ofNat (z / nanosPerSec).toNat) ≤ z := by
  have hbounds := (representable_iff z).mp hrep
  have hsecs : (UInt64.ofNat (z / 1000000000).toNat).toNat = (z / 1000000000).toNat := by
    have hlt : (z / 1000000000).toNat < 2 ^ 64 := by omega
    exact UInt64.toNat_ofNat_of_lt' hlt
  have hinstant : epochInstant (UInt64.ofNat (z / nanosPerSec).toNat) = ((z / 1000000000).toNat : ℤ) * 1000000000 :=
    congrArg (fun n : ℕ ↦ (n : ℤ) * 1000000000) hsecs
  have hcut : z - 1000000000 < ((z / 1000000000).toNat : ℤ) * 1000000000 ∧
      ((z / 1000000000).toNat : ℤ) * 1000000000 ≤ z := by
    omega
  rw [hinstant]
  exact hcut

variable {now : SystemTime} {d : Duration}

/-- What the clock cannot hold is an error. -/
theorem unixSecsAfter_cases (h : 0 ≤ now) :
    (∃ t, Cli.unixSecsAfter now d = .ok t ∧ SystemTime.Representable (now + d.asNanos) ∧
      now + d.asNanos - nanosPerSec < epochInstant t ∧ epochInstant t ≤ now + d.asNanos) ∨
    (Cli.unixSecsAfter now d = .error (.msg "expiry is too far in the future") ∧
      ¬ SystemTime.Representable (now + d.asNanos)) := by
  have hnonneg : 0 ≤ now + d.asNanos := Int.add_nonneg h (Int.natCast_nonneg _)
  unfold Cli.unixSecsAfter SystemTime.checkedAdd
  by_cases hrep : SystemTime.Representable (now + d.asNanos)
  · rw [if_pos hrep]
    dsimp only
    rw [if_neg (Int.not_lt.mpr hnonneg)]
    exact .inl ⟨_, rfl, hrep, epochInstant_ofNat hnonneg hrep⟩
  · rw [if_neg hrep]
    exact .inr ⟨rfl, hrep⟩

end Seconds

section Adding

variable {env : Env} {publicId peerId : EndpointId} {ring peer : String} {t : UInt64} {s : NodeState}

def registryCalls (log : Trace Call.Ans) : List RegistryCall :=
  log.filterMap fun x ↦ match x.1 with
    | .registry c => some c
    | _ => none

theorem wp_now {σ : Type} {R : (c : Call) → σ → c.Ans → σ → Prop} {Q : SystemTime → σ → Prop}
    {Z : Error → σ → Prop} {x : σ} : now.wp R Q Z x ↔ ∀ a y, R .now x a y → Q a y := Iff.rfl

theorem answers_now {a : SystemTime} {s' : NodeState} (h : Answers .now s a s') : a = s.clock ∧ s' = s := by
  cases h with
  | exec => exact ⟨rfl, rfl⟩
  | refused s e h => cases h

/-- The timestamp is one that the clock can hold and that has not passed. -/
def Ahead (now : SystemTime) (t : UInt64) : Prop := SystemTime.Representable (epochInstant t) ∧ now < epochInstant t

theorem wp_futureExpiry {log : Trace Call.Ans} {Q : Expiry → NodeState × Trace Call.Ans → Prop}
    {Z : Error → NodeState × Trace Call.Ans → Prop}
    (hahead : Ahead s.clock t → ∀ e : Expiry, e.instant = epochInstant t → Q e (s, log ++ [⟨.now, s.clock⟩]))
    (hnot : ¬ Ahead s.clock t → ∀ e log', Z e (s, log')) :
    (futureExpiry t).wp (logged Answers) Q Z (s, log) := by
  unfold futureExpiry
  split
  · rename_i hnone
    refine hnot (fun h ↦ ?_) _ _
    rw [epochPlus_of_representable h.1] at hnone
    cases hnone
  · rename_i instant hinstant
    obtain ⟨hrep, rfl⟩ : SystemTime.Representable (epochInstant t) ∧ instant = epochInstant t := by
      by_cases hrep : SystemTime.Representable (epochInstant t)
      · rw [epochPlus_of_representable hrep] at hinstant
        exact ⟨hrep, (Option.some.inj hinstant).symm⟩
      · rw [epochPlus_of_not_representable hrep] at hinstant
        cases hinstant
    rw [wp_bind, wp_now]
    intro a y hy
    obtain ⟨s', log'⟩ := y
    obtain ⟨hanswer, hlog⟩ := hy
    obtain ⟨hclock, hstate⟩ := answers_now hanswer
    dsimp only at hlog hclock hstate
    subst hlog hclock hstate
    split
    · rename_i hlt
      exact hahead ⟨hrep, hlt⟩ _ rfl
    · rename_i hlt
      exact hnot (fun h ↦ hlt h.2) _ _

theorem registryCalls_concat (log : Trace Call.Ans) (x : (c : Call) × c.Ans) :
    registryCalls (log ++ [x]) = registryCalls log ++ registryCalls [x] := List.filterMap_append

def Entered (ring : String) (peerId : EndpointId) (instant : SystemTime) (x : NodeState × Trace Call.Ans) : Prop :=
  registryCalls x.2 = [.addPeerToRing ring peerId (some instant)] ∧
    (x.1.registry.members ring)[peerId]? = some (some instant)

theorem uses_ensure_peers (peer : EndpointId) : (PeerStore.ensure peer).Uses (fun c ↦ ∃ p, c = .peers p) := by
  refine (uses_asking (.peers (.get peer)) id ⟨_, rfl⟩).bind fun stored ↦ ?_
  split
  · trivial
  · exact uses_asking (.peers (.insert peer _)) id ⟨_, rfl⟩

theorem wp_ensure_entered {instant : SystemTime} {x : NodeState × Trace Call.Ans} (h : Entered ring peerId instant x) :
    (PeerStore.ensure peerId).wp (logged Answers) (fun _ ↦ Entered ring peerId instant)
      (fun _ ↦ Entered ring peerId instant) x := by
  refine (uses_ensure_peers peerId).wp_invariant (fun c y a z hc hy hz ↦ ?_) h
  obtain ⟨p, rfl⟩ := hc
  obtain ⟨hanswer, hlog⟩ := hz
  have hregistry : z.1.registry = y.1.registry := by
    generalize z.1 = s' at hanswer
    cases hanswer with
    | exec => rfl
    | refused => rfl
  constructor
  · rw [hlog, registryCalls_concat, hy.1]
    rfl
  · rw [hregistry]
    exact hy.2

theorem wp_addPeerToRing_entered {instant : SystemTime} {log : Trace Call.Ans} (hlog : registryCalls log = [])
    {Q : Unit → NodeState × Trace Call.Ans → Prop} {Z : Error → NodeState × Trace Call.Ans → Prop}
    (hok : ∀ x, Entered ring peerId instant x → Q () x)
    (herr : ∀ e x, registryCalls x.2 = [.addPeerToRing ring peerId (some instant)] → Z e x) :
    (registry (.addPeerToRing ring peerId (some instant))).wp (logged Answers) Q Z (s, log) := by
  rw [wp_registry]
  intro a x hx
  obtain ⟨hanswer, hx⟩ := hx
  have hcalls : registryCalls x.2 = [.addPeerToRing ring peerId (some instant)] := by
    rw [hx, registryCalls_concat, hlog]
    rfl
  rcases answers_registry hanswer with ⟨rfl, hstate⟩ | ⟨⟨e, rfl⟩, -⟩
  · by_cases hring : ring ∈ s.registry.rings
    · simp only [RegistryCall.exec, Registry.addPeerToRing, if_pos hring, outcome_ok] at hstate ⊢
      refine hok x ⟨hcalls, ?_⟩
      rw [hstate, Registry.members_setMembers, if_pos rfl, ExtTreeMap.getElem?_insert_self]
      rfl
    · simp only [RegistryCall.exec, Registry.addPeerToRing, if_neg hring, outcome_error]
      exact herr _ x hcalls
  · exact herr e x hcalls

theorem wp_ringAddLines_expiry (hring : ring ≠ openRingName) (hparse : parsePeerId env peer = .ok peerId)
    (hown : peerId ≠ publicId) :
    (ringAddLines env publicId ring peer (some t)).wp (logged Answers)
      (fun _ x ↦ Ahead s.clock t ∧ Entered ring peerId (epochInstant t) x)
      (fun _ x ↦ (Ahead s.clock t → registryCalls x.2 = [.addPeerToRing ring peerId (some (epochInstant t))]) ∧
        (¬ Ahead s.clock t → x.1 = s)) (s, []) := by
  unfold ringAddLines
  rw [if_neg hring, hparse, ofExcept_ok, ret_bind, if_neg hown]
  dsimp only
  rw [wp_bind, map_eq_pure_bind, wp_bind]
  apply wp_futureExpiry
  · intro hahead e he
    rw [pure_def, wp_ret, wp_bind, Option.map_some, he]
    apply wp_addPeerToRing_entered rfl
    · intro x hx
      rw [wp_bind]
      refine wp_mono (wp_ensure_entered hx) (fun _ y hy ↦ ⟨hahead, hy⟩) fun e y hy ↦ ?_
      exact ⟨fun _ ↦ hy.1, fun hnot ↦ absurd hahead hnot⟩
    · intro e x hx
      exact ⟨fun _ ↦ hx, fun hnot ↦ absurd hahead hnot⟩
  · intro hnot e log
    exact ⟨fun hahead ↦ absurd hahead hnot, fun _ ↦ rfl⟩

end Adding

section Command

theorem op_add {now : SystemTime} {ring peer : String} {d : Duration} {t : UInt64} :
    Cli.RingCmd.op now (.add ring peer (some d)) = .ok (.ringAdd ring peer (some t)) ↔
      Cli.unixSecsAfter now d = .ok t := by
  unfold Cli.RingCmd.op
  rw [bind_eq_ok]
  constructor
  · intro ⟨t', ht', hop⟩
    cases hop
    exact ht'
  · intro ht
    exact ⟨t, ht, rfl⟩

/-- A time ahead of the clock is one that a duration can hold. -/
theorem remaining_lt {now : ℤ} {t : UInt64} (hnow : SystemTime.Representable now) (h : Ahead now t) :
    0 ≤ epochInstant t - now ∧ epochInstant t - now < 2 ^ 64 * nanosPerSec := by
  have hmax : 2 ^ 64 * nanosPerSec = 18446744073709551616000000000 := by decide
  have hbound : ∀ z : ℤ, SystemTime.Representable z → now < z →
      0 ≤ z - now ∧ z - now < 18446744073709551616000000000 := by
    intro z hz hlt
    rw [representable_iff] at hz hnow
    omega
  rw [hmax]
  exact hbound (epochInstant t) h.1 h.2

theorem not_live_after {s : NodeState} {ring : String} {peerId : EndpointId} {instant later : SystemTime}
    (h : (s.registry.members ring)[peerId]? = some (some instant)) (hlater : instant ≤ later) :
    s.registry.isLiveMember later ring peerId = false := by
  unfold Registry.isLiveMember
  rw [h, Option.any_some]
  exact decide_eq_false (Int.not_lt.mpr hlater)

/-- A membership that is asked for with a duration ends at a whole second, before the duration
is over and less than a second before that. -/
theorem ringAdd_expiry {n₁ : SystemTime} (h : 0 ≤ n₁) (d : Duration) :
    ((∃ t, Cli.unixSecsAfter n₁ d = .ok t ∧ n₁ + d.asNanos - nanosPerSec < epochInstant t ∧
        epochInstant t ≤ n₁ + d.asNanos) ∨
      (∃ e, Cli.unixSecsAfter n₁ d = .error e) ∧ ¬ SystemTime.Representable (n₁ + d.asNanos)) ∧
    (∀ (n₂ : SystemTime) (t : UInt64), SystemTime.Representable n₂ → Ahead n₂ t →
      0 ≤ epochInstant t - n₂ ∧ epochInstant t - n₂ < 2 ^ 64 * nanosPerSec) ∧
    ∀ env publicId ring peer peerId t s r s' log, ring ≠ openRingName → parsePeerId env peer = .ok peerId →
      peerId ≠ publicId →
      Runs (logged Answers) (ringAddLines env publicId ring peer (some t)) (s, []) r (s', log) →
      (Ahead s.clock t → registryCalls log = [.addPeerToRing ring peerId (some (epochInstant t))]) ∧
      (¬ Ahead s.clock t → (∃ e, r = .error e) ∧ s' = s) ∧
      (Cli.RingCmd.op n₁ (.add ring peer (some d)) = .ok (.ringAdd ring peer (some t)) →
        (∃ lines, r = .ok lines) → ∀ later, n₁ + d.asNanos ≤ later →
          s'.registry.isLiveMember later ring peerId = false) := by
  refine ⟨?_, fun n₂ t ↦ remaining_lt, ?_⟩
  · rcases unixSecsAfter_cases (d := d) h with ⟨t, ht, -, hbounds⟩ | ⟨he, hrep⟩
    · exact .inl ⟨t, ht, hbounds⟩
    · exact .inr ⟨⟨_, he⟩, hrep⟩
  · intro env publicId ring peer peerId t s r s' log hring hparse hown hrun
    have hwp := wp_ringAddLines_expiry (s := s) (t := t) hring hparse hown
    cases r with
    | error e =>
      obtain ⟨hahead, hnot⟩ := hrun.error_of_wp hwp
      exact ⟨hahead, fun h ↦ ⟨⟨e, rfl⟩, hnot h⟩, fun _ ⟨lines, hlines⟩ ↦ by cases hlines⟩
    | ok lines =>
      obtain ⟨hahead, hcalls, hmember⟩ := hrun.ok_of_wp hwp
      refine ⟨fun _ ↦ hcalls, fun hnot ↦ absurd hahead hnot, fun hop _ later hlater ↦ ?_⟩
      have ht := op_add.mp hop
      rcases unixSecsAfter_cases (d := d) h with ⟨t', ht', -, -, hle⟩ | ⟨he, -⟩
      · obtain rfl : t' = t := Except.ok.inj (ht'.symm.trans ht)
        exact not_live_after hmember (Int.le_trans hle hlater)
      · rw [he] at ht
        cases ht

theorem ok_of_toOption {α : Type} {x : Except Error α} {v : α} (h : x.toOption = some v) : x = .ok v := by
  cases x with
  | ok a => rw [Option.some.inj h]
  | error e => cases h

def amongFriends : NodeState :=
  { emptyNode with
    registry := Registry.empty.setMembers "friends" ∅
    clock := 1700000000999999999 }

def joining : Except Error (List String) × NodeState × Trace Call.Ans :=
  run (logging exec)
    (ringAddLines (.plain []) (.fromByte 2) "friends" (toString (EndpointId.fromByte 1)) (some 1700000010))
    (amongFriends, [])

theorem ringAdd_expiry_tenSeconds :
    registryCalls joining.2.2 = [.addPeerToRing "friends" (.fromByte 1) (some 1700000010000000000)] ∧
      joining.2.1.registry.isLiveMember 1700000010999999999 "friends" (.fromByte 1) = false := by
  have hrun := (@ringAdd_expiry 1700000000999999999 (by decide) (Duration.fromSecs 10)).2.2 (.plain []) (.fromByte 2)
    "friends" (toString (EndpointId.fromByte 1)) (.fromByte 1) 1700000010 amongFriends joining.1 joining.2.1 joining.2.2
    (by decide) (by decide +kernel) (by decide)
    ((runs_logging _ _).mono fun _ _ _ _ hlogged ↦ ⟨answers_of_graph hlogged.1, hlogged.2⟩)
  have hop : Cli.RingCmd.op 1700000000999999999
      (.add "friends" (toString (EndpointId.fromByte 1)) (some (Duration.fromSecs 10))) =
      .ok (.ringAdd "friends" (toString (EndpointId.fromByte 1)) (some 1700000010)) :=
    op_add.mpr (ok_of_toOption (by decide +kernel))
  obtain ⟨lines, hlines⟩ := Option.isSome_iff_exists.mp (show joining.1.toOption.isSome = true by decide +kernel)
  have hok : ∃ lines, joining.1 = .ok lines := ⟨lines, ok_of_toOption hlines⟩
  exact ⟨hrun.1 ⟨by decide +kernel, by decide +kernel⟩, hrun.2.2 hop hok _ (by decide)⟩

end Command

end Ringdrop
