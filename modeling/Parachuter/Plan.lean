import Parachuter.Arrivals
import Parachuter.Cleaner
/-!
# Plan — what the cleaner plans for what is in holding

For an id whose sidecar can be read the plan has a request for the name while there is none, and one request for each
missing range (`filter_plan`), so the id gets a request exactly while something is missing (`planned_iff`).
-/
namespace Parachuter

open Blob (Bytes)
open Calls (Res)

namespace Cleaner

variable {crc : Bytes → UInt32} {d : Disk}

theorem exec_hasName {id : FileId} {m : Manifest} (h : d.sidecar crc id = some m) :
    (Reassembler.hasName crc id).exec d = (.ok (!m.name.isEmpty), d) := by
  obtain ⟨buf, hbuf, hm⟩ := Disk.sidecar_some h
  unfold Reassembler.hasName
  rw [Calls.exec_bind, Manifest.exec_open_some hbuf hm]
  rfl

theorem exec_missingRanges {id : FileId} {m : Manifest} (h : d.sidecar crc id = some m) :
    (Reassembler.missingRanges crc id).exec d = (.ok m.missingRanges, d) := by
  obtain ⟨buf, hbuf, hm⟩ := Disk.sidecar_some h
  unfold Reassembler.missingRanges
  rw [Calls.exec_bind, Manifest.exec_open_some hbuf hm]
  rfl

/-- What is planned for a sidecar. -/
def requestsFor (id : FileId) (m : Manifest) : List Planned :=
  planName id (.ok (!m.name.isEmpty)) ++ planGaps id (.ok m.missingRanges)

/-- One turn of the planning loop, on a sidecar that can be read. -/
theorem planned_eq {id : FileId} {m : Manifest} (h : d.sidecar crc id = some m) :
    planName id ((Reassembler.hasName crc id).exec d).1 ++ planGaps id ((Reassembler.missingRanges crc id).exec d).1 =
      requestsFor id m := by
  rw [exec_hasName h, exec_missingRanges h]
  rfl

theorem planName_fileId {id : FileId} {named : Res Error Bool} {p : Planned} (h : p ∈ planName id named) :
    p.fileId = id := by
  unfold planName at h
  split at h
  · cases h
  · rw [List.mem_singleton.1 h]

theorem planGaps_fileId {id : FileId} {missing : Res Error (List (UInt32 × UInt32))} {p : Planned}
    (h : p ∈ planGaps id missing) : p.fileId = id := by
  unfold planGaps at h
  split at h
  · obtain ⟨r, -, rfl⟩ := List.mem_map.1 h
    rfl
  · cases h

theorem planned_fileId {id : FileId} {p : Planned} (h : p ∈ planName id ((Reassembler.hasName crc id).exec d).1 ++
    planGaps id ((Reassembler.missingRanges crc id).exec d).1) : p.fileId = id := by
  rcases List.mem_append.1 h with h | h
  · exact planName_fileId h
  · exact planGaps_fileId h

theorem filter_flatMap {α β : Type} [DecidableEq α] {f : α → List β} {key : β → α} (hkey : ∀ a, ∀ b ∈ f a, key b = a)
    {a : α} : ∀ {l : List α}, l.Nodup → a ∈ l → (l.flatMap f).filter (fun b => key b = a) = f a
  | [], _, h        => by cases h
  | c :: l, hnd, h => by
    have hself : (f a).filter (fun b => key b = a) = f a :=
      List.filter_eq_self.2 (fun b hb => decide_eq_true (hkey a b hb))
    have hother : ∀ c, c ≠ a → (f c).filter (fun b => key b = a) = [] := by
      intro c hc
      refine List.filter_eq_nil_iff.2 (fun b hb hk => hc ?_)
      rw [← hkey c b hb]
      exact of_decide_eq_true hk
    rw [List.nodup_cons] at hnd
    rw [List.flatMap_cons, List.filter_append]
    rcases List.mem_cons.1 h with rfl | h
    · have hrest : (l.flatMap f).filter (fun b => key b = a) = [] := by
        refine List.filter_eq_nil_iff.2 (fun b hb hk => ?_)
        obtain ⟨c, hc, hb⟩ := List.mem_flatMap.1 hb
        rw [hkey c b hb] at hk
        exact hnd.1 (of_decide_eq_true hk ▸ hc)
      rw [hself, hrest, List.append_nil]
    · rw [hother c (fun he => hnd.1 (he ▸ h)), List.nil_append]
      exact filter_flatMap hkey hnd.2 h

/-- **The part of the plan for one id.** -/
theorem filter_plan {id : FileId} {m : Manifest} (hm : d.sidecar crc id = some m) :
    (plan crc d).filter (fun p => p.fileId = id) = requestsFor id m := by
  have hmem : id ∈ Reassembler.inFlight d := by
    obtain ⟨buf, hbuf, -⟩ := Disk.sidecar_some hm
    rw [Reassembler.mem_inFlight, hbuf]
    exact Option.some_ne_none buf
  unfold plan planning
  rw [@filter_flatMap FileId Planned _ _ Planned.fileId (fun id p => planned_fileId) id _ (Reassembler.nodup_inFlight d)
    hmem]
  exact planned_eq hm

/-- Where there is one sidecar, its part is the plan. -/
theorem plan_single {id : FileId} {m : Manifest} (hm : d.sidecar crc id = some m)
    (hone : ∀ j, d.get (.manifest j) ≠ none → j = id) : plan crc d = requestsFor id m := by
  have hall : ∀ p ∈ plan crc d, p.fileId = id := by
    intro p hp
    obtain ⟨j, hj, hp⟩ := List.mem_flatMap.1 hp
    rw [planned_fileId hp]
    exact hone j (Reassembler.mem_inFlight.1 hj)
  rw [← filter_plan hm]
  exact (List.filter_eq_self.2 (fun p hp => decide_eq_true (hall p hp))).symm

theorem mem_requestsFor {id : FileId} {m : Manifest} {p : Planned} : p ∈ requestsFor id m ↔
    (m.name = [] ∧ p = ⟨id, ⟨0, 0⟩, .resendName⟩) ∨ ∃ r ∈ m.missingRanges, p = ⟨id, ⟨r.1, r.2⟩, .retransmit⟩ := by
  unfold requestsFor
  rw [List.mem_append]
  refine or_congr ?_ ?_
  · unfold planName
    cases hn : m.name with
    | nil => simp
    | cons c cs => simp
  · unfold planGaps
    rw [List.mem_map]
    exact exists_congr (fun r => and_congr_right (fun _ => eq_comm))

theorem nodup_requestsFor (id : FileId) (m : Manifest) : (requestsFor id m).Nodup := by
  unfold requestsFor
  refine List.Nodup.append ?_ ?_ (fun p hp hq => ?_)
  · unfold planName
    split
    · exact List.nodup_nil
    · exact List.nodup_singleton _
  · unfold planGaps
    refine List.Nodup.map (fun r s h => ?_) m.nodup_missingRanges
    rw [Planned.mk.injEq, RequestedRange.mk.injEq] at h
    exact Prod.ext h.2.1.1 h.2.1.2
  · -- a request for the name and one for a range are of different kinds
    unfold planName at hp
    unfold planGaps at hq
    obtain ⟨r, -, rfl⟩ := List.mem_map.1 hq
    split at hp
    · cases hp
    · have hkind := congrArg Planned.kind (List.mem_singleton.1 hp)
      cases hkind

/-- **No request is planned twice**, where every sidecar can be read. -/
theorem nodup_plan (h : ∀ id ∈ Reassembler.inFlight d, ∃ m, d.sidecar crc id = some m) : (plan crc d).Nodup := by
  unfold plan planning
  rw [List.nodup_flatMap]
  refine ⟨fun id hid => ?_, (Reassembler.nodup_inFlight d).imp (fun {a b} hab p hp hq => hab ?_)⟩
  · obtain ⟨m, hm⟩ := h id hid
    rw [planned_eq hm]
    exact nodup_requestsFor id m
  · rw [← planned_fileId hp, planned_fileId hq]

theorem requestsFor_eq_nil (id : FileId) (m : Manifest) :
    requestsFor id m = [] ↔ m.name ≠ [] ∧ ∀ i, i < m.numChunks.toNat → m.has i = true := by
  unfold requestsFor
  rw [List.append_eq_nil_iff]
  refine and_congr ?_ ?_
  · unfold planName
    cases hn : m.name with
    | nil => simp
    | cons c cs => simp
  · unfold planGaps
    rw [List.map_eq_nil_iff]
    exact m.missingRanges_eq_nil

/-- **An id gets a request exactly while something of it is missing.** -/
theorem planned_iff {id : FileId} {m : Manifest} (hm : d.sidecar crc id = some m) :
    (∃ p ∈ plan crc d, p.fileId = id) ↔ m.name = [] ∨ ∃ i, i < m.numChunks.toNat ∧ m.has i = false := by
  have hfilter := filter_plan hm
  have hnil := requestsFor_eq_nil id m
  rw [← hfilter, List.filter_eq_nil_iff] at hnil
  constructor
  · rintro ⟨p, hp, hid⟩
    by_contra hn
    rw [not_or, not_exists] at hn
    refine hnil.2 ⟨hn.1, fun i hi => ?_⟩ p hp (decide_eq_true hid)
    have := hn.2 i
    rw [not_and, Bool.not_eq_false] at this
    exact this hi
  · intro h
    by_contra hn
    obtain ⟨hname, hall⟩ := hnil.1 (fun p hp hid => hn ⟨p, hp, of_decide_eq_true hid⟩)
    rcases h with h | ⟨i, hi, hf⟩
    · exact hname h
    · rw [hall i hi] at hf
      cases hf

end Cleaner

end Parachuter
