import PhasedGrid.Peer.Network
import PhasedGrid.Snapshot.Cluster
import PhasedGrid.Proofs.Decimal.Readback
import PhasedGrid.Proofs.Tables

/-!
What the messages of a collector read as, once the network has stamped them with their sender. A
marker and a payload come back as they were; a fragment comes back with its reading retold.
-/

namespace PhasedGrid.Snapshot

set_option autoImplicit false

open PhasedGrid.Peer (Message Network)

def Fragment.retold : Fragment → Fragment
  | .gateway source value => .gateway source (Decimal.retold value)
  | .transit value source destination => .transit value source destination

namespace Wire

/-- The kinds of message that are not payloads. -/
def reserved : List String := ["marker", "state", "request"]

theorem get?_put (m : Message) (key value key' : String) :
    (m.put key value).get? key' = if key = key' then some value else m.get? key' :=
  Table.get?_insert m.entries key key' value

theorem get?_stamp (sender : String) (m : Message) (key : String) :
    (Network.stamp sender m).get? key = m.get? key := rfl

theorem get?_empty (source key : String) : ({ source } : Message).get? key = none := rfl

theorem sequence?_natText {n : Nat} (h : n ≤ Decimal.maxU64) :
    sequence? (Text.trim (Decimal.natText n)) = some n := by
  rw [Decimal.trim_natText, sequence?, Decimal.unsigned?_natText h]

theorem read_marker (sender : String) {v : Version} (h : v.sequence ≤ Decimal.maxU64) :
    read (Network.stamp sender (marker v)) = .ok (some (.marker v)) := by
  simp [read, require, number, marker, get?_stamp, get?_put, get?_empty, sequence?_natText h,
    bind, Except.bind, pure, Except.pure]

/-- Whatever its number, a marker names its own version or none. -/
theorem eq_of_read_marker {sender : String} {v w : Version}
    (h : read (Network.stamp sender (marker v)) = .ok (some (.marker w))) : w = v := by
  by_cases hv : v.sequence ≤ Decimal.maxU64
  · rw [read_marker sender hv] at h
    exact (Notice.marker.inj (Option.some.inj (Except.ok.inj h))).symm
  · have hnone : sequence? (Text.trim (Decimal.natText v.sequence)) = none := by
      rw [Decimal.trim_natText, sequence?, Decimal.unsigned?_natText_ite, if_neg hv]
    simp [read, require, number, marker, get?_stamp, get?_put, get?_empty, hnone, bind,
      Except.bind, throw, throwThe, MonadExceptOf.throw] at h

/-- The peers on a list are those that it names between its commas. -/
theorem read_listed (leader : String) (peers : List String) :
    read (peerList leader peers) = .ok (some (.peerList leader
      (((Text.split ',' (Text.join "," peers)).map Text.trim).filter fun p => !p.isEmpty))) := by
  simp [read, require, peerList, get?_put, bind, Except.bind, pure, Except.pure]
  rfl

/-- A list of names that are neither empty nor blank at their ends, and without commas. -/
theorem read_peerList (leader : String) {peers : List String} (hne : peers ≠ [])
    (h : ∀ p ∈ peers, p ≠ "" ∧ Text.trim p = p ∧ ',' ∉ p.toList) :
    read (peerList leader peers) = .ok (some (.peerList leader peers)) := by
  have htrim : peers.map Text.trim = peers :=
    (List.map_congr_left fun p hp => (h p hp).2.1).trans (List.map_id peers)
  have hall : (peers.map Text.trim).filter (fun p => !p.isEmpty) = peers := by
    rw [htrim, List.filter_eq_self]
    intro p hp
    simpa using (h p hp).1
  rw [read_listed, Text.split_join hne fun p hp => (h p hp).2.2, hall]

theorem read_fragment (sender by' : String) (f : Fragment) :
    read (Network.stamp sender (fragment by' f)) = .ok (some (.state f.retold)) := by
  cases f <;>
    simp [read, readFragment, require, number, fragment, get?_stamp, get?_put, get?_empty,
      Decimal.trim_render, Decimal.reading?_render, Fragment.retold, bind, Except.bind, pure,
      Except.pure, Except.map]

theorem read_payload (source : String) {value : String} (h : value ∉ reserved) {tag : Option Version}
    (ht : ∀ v ∈ tag, v.sequence ≤ Decimal.maxU64) :
    read (Network.stamp source (payload source value tag)) = .ok (some (.payload value source tag)) := by
  simp only [reserved, List.mem_cons, List.not_mem_nil, or_false, not_or] at h
  cases tag with
  | none =>
    simp [read, readTag, payload, Wire.sender, get?_stamp, get?_put, get?_empty, h, Except.map]
  | some v =>
    simp [read, readTag, require, number, payload, Wire.sender, get?_stamp, get?_put, get?_empty, h,
      sequence?_natText (ht v rfl), bind, Except.bind, pure, Except.pure, Except.map]

theorem mem_handlerKeys {m : Message} (key value : String) (h : m.get? key = some value) :
    Text.upTo '.' key ∈ m.handlerKeys := by
  unfold Message.handlerKeys
  rw [Ordered.mem_ofList]
  refine List.mem_map_of_mem ((Table.mem_keys_iff key m.entries).mpr ?_)
  rw [Table.has_eq]
  exact Option.isSome_of_eq_some h

theorem marker_handlerKeys (v : Version) : "sc" ∈ (marker v).handlerKeys :=
  mem_handlerKeys "sc" "marker" (by simp [marker, get?_put])

theorem peerList_handlerKeys (leader : String) (peers : List String) :
    "any" ∈ (peerList leader peers).handlerKeys :=
  mem_handlerKeys "any" "peerList" (by simp [peerList, get?_put])

theorem fragment_handlerKeys (by' : String) (f : Fragment) : "sc" ∈ (fragment by' f).handlerKeys := by
  refine mem_handlerKeys "sc" "state" ?_
  cases f <;> simp [fragment, get?_put]

/-- The answer of a finished snapshot is nothing that a collector acts on, whatever module asked for
it: at most it passes for a payload. -/
theorem read_answer (sender : String) (c : Collected) {notice : Notice}
    (h : read (Network.stamp sender (c.toMessage sender)) = .ok (some notice)) :
    ∃ value source tag, notice = .payload value source tag := by
  -- the keys of the gateway and the version are too long to be keys that a reader looks at first
  have hkey : ∀ key value, (Network.stamp sender (c.toMessage sender)).get? key = some value →
      key.length ≤ 7 → value = Collected.mark := by
    intro key value hv hl
    have hne : ∀ ending : String, ending.length = 8 → c.module ++ ending ≠ key := by
      rintro ending he rfl
      rw [String.length_append, he] at hl
      omega
    simp only [get?_stamp, Collected.toMessage, get?_put, get?_empty] at hv
    rw [if_neg (hne ".version" rfl), if_neg (hne ".gateway" rfl)] at hv
    split at hv
    · exact (Option.some.inj hv).symm
    · cases hv
  have hmark : ∀ kind ∈ ["peerList", "marker", "state", "request"], kind ≠ Collected.mark := by
    decide
  have hany : (Network.stamp sender (c.toMessage sender)).get? "any" ≠ some "peerList" := fun ha =>
    hmark "peerList" (by decide) (hkey "any" "peerList" ha (by decide))
  unfold read at h
  rw [if_neg hany] at h
  cases hk : (Network.stamp sender (c.toMessage sender)).get? "sc" with
  | none =>
    rw [hk] at h
    cases h
  | some kind =>
    rw [hk] at h
    obtain rfl := hkey "sc" kind hk (by decide)
    simp only [if_neg (Ne.symm (hmark "request" (by decide))),
      if_neg (Ne.symm (hmark "marker" (by decide))),
      if_neg (Ne.symm (hmark "state" (by decide)))] at h
    cases ht : readTag (Network.stamp sender (c.toMessage sender)) with
    | error e =>
      rw [ht] at h
      cases h
    | ok tag =>
      rw [ht] at h
      cases h
      exact ⟨_, _, tag, rfl⟩

end Wire

namespace Collected

/-- A collected state has an entry for its version. -/
theorem ofMessage?_eq_none {m : Message} {module : String}
    (h : m.get? (module ++ ".version") = none) : ofMessage? module m = none := by
  unfold ofMessage?
  split
  · rw [h]
    cases m.get? (module ++ ".gateway") <;> rfl
  · rfl

theorem version_key_ne {key : String} (h : ¬ ".version".toList <:+ key.toList) (module : String) :
    key ≠ module ++ ".version" := by
  rintro rfl
  apply h
  rw [String.toList_append]
  exact List.suffix_append module.toList ".version".toList

theorem ofMessage?_marker (module : String) (v : Version) :
    ofMessage? module (Wire.marker v) = none := by
  apply ofMessage?_eq_none
  simp only [Wire.marker, Wire.get?_put, Wire.get?_empty]
  rw [if_neg (version_key_ne (by decide) module), if_neg (version_key_ne (by decide) module),
    if_neg (version_key_ne (by decide) module)]

theorem ofMessage?_fragment (module by' : String) (f : Fragment) :
    ofMessage? module (Wire.fragment by' f) = none := by
  have hne : ∀ key : String, ¬ ".version".toList <:+ key.toList → key ≠ module ++ ".version" := by
    intro key h
    exact version_key_ne h module
  apply ofMessage?_eq_none
  cases f with
  | gateway source value =>
    simp only [Wire.fragment, Wire.get?_put, Wire.get?_empty]
    rw [if_neg (hne "sc.source" (by decide)), if_neg (hne "sc.gateway" (by decide)),
      if_neg (hne "sc.type" (by decide)), if_neg (hne "sc" (by decide))]
  | transit value source destination =>
    simp only [Wire.fragment, Wire.get?_put, Wire.get?_empty]
    rw [if_neg (hne "sc.transit.destin" (by decide)), if_neg (hne "sc.transit.source" (by decide)),
      if_neg (hne "sc.transit.value" (by decide)), if_neg (hne "sc.source" (by decide)),
      if_neg (hne "sc.type" (by decide)), if_neg (hne "sc" (by decide))]

theorem get?_toMessage {c : Collected} {source key value : String}
    (h : (c.toMessage source).get? key = some value) :
    key = c.module ∨ key = c.module ++ ".gateway" ∨ key = c.module ++ ".version" := by
  simp only [toMessage, Wire.get?_put, Wire.get?_empty] at h
  split at h
  · exact .inr (.inr (Eq.symm ‹_›))
  split at h
  · exact .inr (.inl (Eq.symm ‹_›))
  split at h
  · exact .inl (Eq.symm ‹_›)
  · cases h

/-- Only the module that a collected state is addressed to can read it. -/
theorem module_of_toMessage {c : Collected} {source module : String}
    (h : (ofMessage? module (c.toMessage source)).isSome) : c.module = module := by
  unfold ofMessage? at h
  split at h
  · rename_i hmark
    cases hg : (c.toMessage source).get? (module ++ ".gateway") with
    | none =>
      rw [hg] at h
      cases h
    | some gateway =>
      rcases get?_toMessage hg with hkey | hkey | hkey
      · -- then the entry for `module` itself has a key shorter than all of them
        have hlong : c.module.length = module.length + 8 := by
          rw [← hkey, String.length_append]
          rfl
        rcases get?_toMessage hmark with rfl | rfl | rfl
        · omega
        · rw [String.length_append] at hlong
          omega
        · rw [String.length_append] at hlong
          omega
      · exact (String.append_left_inj ".gateway").mp hkey.symm
      · have hlists := congrArg String.toList hkey
        rw [String.toList_append, String.toList_append] at hlists
        have hlength : ".gateway".toList.length = ".version".toList.length := by decide
        exact absurd (List.append_inj' hlists hlength).2 (by decide)
  · cases h

end Collected

end PhasedGrid.Snapshot
