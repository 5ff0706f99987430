import PhasedGrid.Proofs.Decimal.Exactness
import PhasedGrid.Proofs.Snapshot.Reading

/-!
What is written into a message can be read from it. Two kinds of notice have words that they cannot
carry: a payload must not be called like another kind, and the names in a list of peers stand
between commas and are trimmed. What was read is free of such words, so that it can be written and
read again.
-/

namespace PhasedGrid.Snapshot

set_option autoImplicit false

open PhasedGrid.Peer (Message Network)

theorem Fragment.retold_eq (f : Fragment) : f.retold = f := by
  cases f with
  | gateway source value => rw [retold, Decimal.retold_eq]
  | transit value source destination => rfl

namespace Wire

/-- A name that can stand in a list of peers. -/
structure Listable (peer : String) : Prop where
  nonempty : peer ≠ ""
  whole : ',' ∉ peer.toList
  bare : Text.Bare peer

theorem listable_of_listed {listed peer : String}
    (h : peer ∈ ((Text.split ',' listed).map Text.trim).filter fun p => !p.isEmpty) :
    Listable peer := by
  obtain ⟨hmem, hne⟩ := List.mem_filter.mp h
  obtain ⟨part, hpart, rfl⟩ := List.mem_map.mp hmem
  obtain ⟨cs, hcs, rfl⟩ := List.mem_map.mp hpart
  refine ⟨by simpa using hne, ?_, Text.bare_trim _⟩
  intro hcomma
  have hcs' := Text.mem_of_mem_trim hcomma
  rw [String.toList_ofList] at hcs'
  exact Text.not_mem_of_mem_splitChars hcs hcs'

theorem read_peerList_iff (leader : String) (peers : List String) :
    read (peerList leader peers) = .ok (some (.peerList leader peers)) ↔
      ∀ peer ∈ peers, Listable peer := by
  constructor
  · intro h peer hpeer
    rw [read_listed] at h
    have hpeers := (Notice.peerList.inj (Option.some.inj (Except.ok.inj h))).2
    rw [← hpeers] at hpeer
    exact listable_of_listed hpeer
  · intro h
    by_cases hnil : peers = []
    · rw [hnil, read_listed]
      rfl
    · apply read_peerList leader hnil
      intro peer hpeer
      obtain ⟨hne, hwhole, hbare⟩ := h peer hpeer
      exact ⟨hne, hbare.trim, hwhole⟩

theorem read_payload_iff (source value : String) {tag : Option Version}
    (ht : ∀ v ∈ tag, v.sequence ≤ Decimal.maxU64) :
    read (payload source value tag) = .ok (some (.payload value source tag)) ↔
      value ∉ reserved := by
  constructor
  · intro h hmem
    simp only [reserved, List.mem_cons, List.not_mem_nil, or_false] at hmem
    rcases hmem with rfl | rfl | rfl <;> cases tag <;>
      simp [read, readFragment, require, number, payload, get?_put, get?_empty, bind, Except.bind,
        Except.map] at h
  · intro h
    have hread := read_payload source h ht
    have hstamp : Network.stamp source (payload source value tag) = payload source value tag := by
      cases tag <;> rfl
    rwa [hstamp] at hread

theorem read_request (sender source module : String) :
    read (Network.stamp sender (request source module)) = .ok (some (.request module source)) := by
  simp [read, require, request, Wire.sender, get?_stamp, get?_put, get?_empty, bind, Except.bind,
    pure, Except.pure]

theorem read_fragment_self (sender : String) (f : Fragment) :
    read (fragment sender f) = .ok (some (.state f)) := by
  have hread := read_fragment sender sender f
  have hstamp : Network.stamp sender (fragment sender f) = fragment sender f := by
    cases f <;> rfl
  rwa [hstamp, f.retold_eq] at hread

/-- The notices that can be written so that they are read back. -/
def Writable : Notice → Prop
  | .peerList _ peers => ∀ peer ∈ peers, Listable peer
  | .request _ _ => True
  | .marker v => v.sequence ≤ Decimal.maxU64
  | .state _ => True
  | .payload value _ tag => value ∉ reserved ∧ ∀ v ∈ tag, v.sequence ≤ Decimal.maxU64

theorem read_build {notice : Notice} (h : Writable notice) :
    read (build notice) = .ok (some notice) := by
  cases notice with
  | peerList leader peers => exact (read_peerList_iff leader peers).mpr h
  | request module source => exact read_request source source module
  | marker v => exact read_marker v.initiator h
  | state f =>
    cases f with
    | gateway source value => exact read_fragment_self source _
    | transit value source destination => exact read_fragment_self destination _
  | payload value sender tag => exact (read_payload_iff sender value h.2).mpr h.1

section Steps

variable {α β : Type} {x : Except WireError α} {y : β}

theorem bind_eq_ok {f : α → Except WireError β} (h : x >>= f = .ok y) :
    ∃ a, x = .ok a ∧ f a = .ok y := by
  cases x with
  | error e => cases h
  | ok a => exact ⟨a, rfl, h⟩

theorem map_eq_ok {f : α → β} (h : x.map f = .ok y) : ∃ a, x = .ok a ∧ f a = y := by
  cases x with
  | error e => cases h
  | ok a => exact ⟨a, rfl, Except.ok.inj h⟩

end Steps

theorem sequence_le {m : Message} {key : String} {n : Nat} (h : number sequence? m key = .ok n) :
    n ≤ Decimal.maxU64 := by
  obtain ⟨raw, -, h⟩ := bind_eq_ok h
  split at h
  · rename_i heq
    cases h
    simpa using (Option.filter_eq_some_iff.mp heq).2
  · cases h

theorem tag_le {m : Message} {tag : Option Version} (h : readTag m = .ok tag) :
    ∀ v ∈ tag, v.sequence ≤ Decimal.maxU64 := by
  unfold readTag at h
  split at h
  · cases h
    exact nofun
  · obtain ⟨n, hn, rfl⟩ := map_eq_ok h
    intro v hv
    cases hv
    exact sequence_le hn

/-- Whatever is read could have been written. -/
theorem writable_of_read {m : Message} {notice : Notice} (h : read m = .ok (some notice)) :
    Writable notice := by
  unfold read at h
  split at h
  · obtain ⟨listed, -, h⟩ := bind_eq_ok h
    cases h
    exact fun peer hpeer => listable_of_listed hpeer
  split at h
  · cases h
  split at h
  · obtain ⟨module, -, h⟩ := bind_eq_ok h
    cases h
    trivial
  rename_i hrequest
  split at h
  · obtain ⟨initiator, -, h⟩ := bind_eq_ok h
    obtain ⟨n, hn, h⟩ := bind_eq_ok h
    cases h
    exact sequence_le hn
  rename_i hmarker
  split at h
  · obtain ⟨f, -, h⟩ := map_eq_ok h
    cases h
    trivial
  rename_i hstate
  obtain ⟨tag, htag, h⟩ := map_eq_ok h
  cases h
  refine ⟨?_, tag_le htag⟩
  simp only [reserved, List.mem_cons, List.not_mem_nil, or_false, not_or]
  exact ⟨hmarker, hstate, hrequest⟩

end Wire

namespace Collected

theorem append_ne (module ending : String) (h : 0 < ending.length) :
    module ++ ending ≠ module := by
  intro heq
  have hlength := congrArg String.length heq
  rw [String.length_append] at hlength
  omega

/-- A collected state is read back as it was, whatever its module and its initiator are called. -/
theorem ofMessage?_toMessage (c : Collected) (source : String)
    (h : c.version.sequence ≤ Decimal.maxU64) :
    ofMessage? c.module (c.toMessage source) = some c := by
  have hcut : Text.cutLast? ':' (c.version.initiator ++ ":" ++ Decimal.natText c.version.sequence) =
      some (c.version.initiator, Decimal.natText c.version.sequence) := by
    apply Text.cutLast?_append
    intro hmem
    rw [Decimal.natText, String.toList_ofList] at hmem
    exact absurd (Decimal.isDigit_of_mem_toDigits hmem) (by decide)
  have hkeys : c.module ++ ".version" ≠ c.module ++ ".gateway" := by
    intro heq
    exact absurd ((String.append_right_inj c.module).mp heq) (by decide)
  have hgateway := append_ne c.module ".gateway" (by decide)
  have hversion := append_ne c.module ".version" (by decide)
  simp [ofMessage?, toMessage, Wire.get?_put, hgateway, hversion, hkeys, hcut, Wire.sequence?,
    Decimal.unsigned?_natText h]

end Collected

/-- Every message that a builder writes is read back as what it was built from: always for markers,
requests and fragments, for other traffic unless it is called like one of these, and for a list of
peers if no name on it is empty, has a comma or stands next to a blank. Collected states come back
whatever their names contain. Whatever is read can be built and read again. -/
theorem reads_back :
    (∀ v : Version, v.sequence ≤ Decimal.maxU64 →
      Wire.read (Wire.marker v) = .ok (some (.marker v))) ∧
    (∀ source module : String,
      Wire.read (Wire.request source module) = .ok (some (.request module source))) ∧
    (∀ (sender : String) (f : Fragment),
      Wire.read (Wire.fragment sender f) = .ok (some (.state f))) ∧
    (∀ (source value : String) (tag : Option Version),
      (∀ v ∈ tag, v.sequence ≤ Decimal.maxU64) →
      (Wire.read (Wire.payload source value tag) = .ok (some (.payload value source tag)) ↔
        value ∉ Wire.reserved)) ∧
    (∀ (leader : String) (peers : List String),
      Wire.read (Wire.peerList leader peers) = .ok (some (.peerList leader peers)) ↔
        ∀ peer ∈ peers, Wire.Listable peer) ∧
    (∀ (c : Collected) (source : String), c.version.sequence ≤ Decimal.maxU64 →
      Collected.ofMessage? c.module (c.toMessage source) = some c) ∧
    (∀ (m : Message) (notice : Notice), Wire.read m = .ok (some notice) →
      Wire.read (Wire.build notice) = .ok (some notice)) := by
  refine ⟨?markers, ?requests, ?fragments, ?payloads, ?lists, ?collected, ?again⟩
  case markers =>
    intro v hv
    exact Wire.read_marker v.initiator hv
  case requests =>
    intro source module
    exact Wire.read_request source source module
  case fragments => exact Wire.read_fragment_self
  case payloads =>
    intro source value tag ht
    exact Wire.read_payload_iff source value ht
  case lists => exact Wire.read_peerList_iff
  case collected =>
    intro c source hc
    exact c.ofMessage?_toMessage source hc
  case again =>
    intro m notice h
    exact Wire.read_build (Wire.writable_of_read h)

/-- The longest number, names with colons and dots, and a number between blanks. -/
theorem reads_back_borderline :
    Wire.read (Wire.marker ⟨"a:b", Decimal.maxU64⟩) = .ok (some (.marker ⟨"a:b", Decimal.maxU64⟩)) ∧
    Wire.read (Wire.payload "a" "" (some ⟨"a:b", 7⟩)) =
      .ok (some (.payload "" "a" (some ⟨"a:b", 7⟩))) ∧
    Collected.ofMessage? "m.gateway" (Collected.toMessage ⟨"m.gateway", ⟨"a:1", 7⟩, "1,2"⟩ "a") =
      some ⟨"m.gateway", ⟨"a:1", 7⟩, "1,2"⟩ ∧
    Wire.read ⟨"a", [("sc", "marker"), ("sc.id", " 12 "), ("sc.source", "b")]⟩ =
      .ok (some (.marker ⟨"b", 12⟩)) ∧
    Wire.read (Wire.build (.marker ⟨"b", 12⟩)) = .ok (some (.marker ⟨"b", 12⟩)) := by
  obtain ⟨hmarkers, -, -, hpayloads, -, hcollected, hagain⟩ := reads_back
  have hread : Wire.read ⟨"a", [("sc", "marker"), ("sc.id", " 12 "), ("sc.source", "b")]⟩ =
      .ok (some (.marker ⟨"b", 12⟩)) := rfl
  refine ⟨hmarkers _ (Nat.le_refl _), (hpayloads "a" "" _ ?_).mpr (by decide), hcollected _ "a" ?_,
    hread, hagain _ _ hread⟩
  · intro v hv
    cases hv
    decide
  · decide

end PhasedGrid.Snapshot
