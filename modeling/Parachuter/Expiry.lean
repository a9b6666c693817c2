import Parachuter.Restarts
/-!
# Expiry — how long the table of recent requests turns a key away

What the table holds is read by membership, no key twice.  While the process runs a key is turned away for the time to
live after its last insertion, and no longer.  A save keeps the whole seconds left to an entry and a load counts them from
its own moment, so a key is turned away longer than that exactly when the time between the two is more than the fraction
of a second the save drops.
-/
namespace Parachuter

open Blob (Bytes)

namespace DedupTable

variable {t : DedupTable} {key : Planned} {now : Nat}

/-! ## The table by its members -/

theorem lookup_iff_mem {v : Nat} : ∀ {es : List (Planned × Nat)}, Distinct es → (es.lookup key = some v ↔ (key, v) ∈ es)
  | [], _           => by
    constructor
    · intro h
      cases h
    · intro h
      cases h
  | (k, w) :: es, hd => by
    obtain ⟨hfirst, hrest⟩ := List.pairwise_cons.1 hd
    rw [List.lookup_cons, List.mem_cons, Prod.mk.injEq]
    by_cases hkey : key = k
    · rw [hkey, beq_self_eq_true]
      constructor
      · rintro ⟨⟩
        exact .inl ⟨rfl, rfl⟩
      · rintro (⟨-, rfl⟩ | hmem)
        · rfl
        · exact (hfirst (k, v) hmem rfl).elim
    · rw [beq_false_of_ne hkey]
      exact (lookup_iff_mem hrest).trans ⟨.inr, fun h => h.resolve_left (fun hk => hkey hk.1)⟩

/-- **A key is refused while it has an entry that has not expired.** -/
theorem refused_iff (hd : Distinct t.entries) :
    (t.tryInsert key now).1 = false ↔ ∃ exp, (key, exp) ∈ t.entries ∧ now < exp := by
  constructor
  · intro h
    unfold tryInsert at h
    split at h
    · rename_i hany
      cases hlook : t.entries.lookup key with
      | none =>
        rw [hlook] at hany
        cases hany
      | some exp =>
        rw [hlook] at hany
        exact ⟨exp, (lookup_iff_mem hd).1 hlook, of_decide_eq_true hany⟩
    · cases h
  · rintro ⟨exp, hmem, hlt⟩
    rw [tryInsert_held ((lookup_iff_mem hd).2 hmem) hlt]

theorem mem_tryInsert (hfresh : (t.tryInsert key now).1 = true) {e : Planned × Nat} :
    e ∈ (t.tryInsert key now).2.entries ↔ e = (key, now + t.ttl) ∨ e ∈ t.entries ∧ e.1 ≠ key := by
  rw [tryInsert_fresh hfresh, List.mem_cons, List.mem_filter, decide_eq_true_iff]

theorem mem_gc {e : Planned × Nat} : e ∈ (t.gc now).entries ↔ e ∈ t.entries ∧ now < e.2 := by
  unfold gc
  rw [List.mem_filter, decide_eq_true_iff]

theorem mem_save {e : Planned × Nat} :
    e ∈ t.save now ↔ ∃ exp, (e.1, exp) ∈ t.entries ∧ now ≤ exp ∧ e.2 = (exp - now) / SECOND := by
  unfold save
  rw [List.mem_filterMap]
  constructor
  · rintro ⟨⟨k, exp⟩, hmem, hsome⟩
    dsimp only at hsome
    split at hsome
    · cases hsome
    · rename_i hlt
      cases hsome
      exact ⟨exp, hmem, Nat.not_lt.1 hlt, rfl⟩
  · rintro ⟨exp, hmem, hle, hleft⟩
    refine ⟨(e.1, exp), hmem, ?_⟩
    dsimp only
    rw [if_neg (Nat.not_lt.2 hle), ← hleft]

theorem mem_foldl_enter {e : Planned × Nat} (file : List (Planned × Nat)) : ∀ {acc : List (Planned × Nat)},
    e ∈ file.foldl (enter now) acc → e ∈ acc ∨ ∃ n, (e.1, n) ∈ file ∧ e.2 = now + SECOND * n := by
  induction file with
  | nil => exact fun h => .inl h
  | cons f file ih =>
    intro acc h
    rcases ih h with hacc | ⟨n, hmem, heq⟩
    · rcases List.mem_cons.1 hacc with rfl | hold
      · exact .inr ⟨f.2, List.mem_cons_self, rfl⟩
      · exact .inl (List.mem_filter.1 hold).1
    · exact .inr ⟨n, List.mem_cons_of_mem _ hmem, heq⟩

theorem mem_load {file : Option (List (Planned × Nat))} (hd : ∀ f, file = some f → Distinct f) {ttl : Nat}
    {e : Planned × Nat} :
    e ∈ (load file ttl now).entries ↔ ∃ n, (e.1, n) ∈ file.getD [] ∧ e.2 = now + SECOND * n := by
  constructor
  · intro h
    exact (mem_foldl_enter _ h).resolve_left List.not_mem_nil
  · rintro ⟨n, hmem, heq⟩
    cases file with
    | none => cases hmem
    | some f =>
      have hlook := lookup_load ttl now (hd f rfl) ((lookup_iff_mem (hd f rfl)).2 hmem)
      rw [← heq] at hlook
      exact (lookup_iff_mem (distinct_load (some f) ttl now)).1 hlook

theorem distinct_tryInsert (h : Distinct t.entries) (key : Planned) (now : Nat) :
    Distinct (t.tryInsert key now).2.entries := by
  cases hfresh : (t.tryInsert key now).1 with
  | true =>
    rw [tryInsert_fresh hfresh]
    exact distinct_insert h key _
  | false =>
    rw [tryInsert_refused hfresh]
    exact h

end DedupTable

/-! ## What happens to a table -/

/-- `load` is a new process, started on the file that was saved last. -/
inductive TableOp
  | tryInsert (key : Planned)
  | gc
  | save
  | load
  deriving DecidableEq, Repr

/-- When a key was inserted, and whether the table was loaded since. -/
structure Insertion where
  time   : Nat
  loaded : Bool
  deriving DecidableEq, Repr

/-- The table, its file, and the last insertion of each key. -/
structure TableState where
  table : DedupTable
  file  : Option (List (Planned × Nat))
  last  : Planned → Option Insertion

namespace TableState

def new (ttl : Nat) : TableState := ⟨.new ttl, none, fun _ => none⟩

def apply (s : TableState) (now : Nat) : TableOp → TableState
  | .tryInsert key =>
    { s with
      table := (s.table.tryInsert key now).2
      last := if (s.table.tryInsert key now).1 then Function.update s.last key (some ⟨now, false⟩) else s.last }
  | .gc            => { s with table := s.table.gc now }
  | .save          => { s with file := some (s.table.save now) }
  | .load          =>
    { s with
      table := .load s.file s.table.ttl now
      last := fun key => (s.last key).map (fun i => { i with loaded := true }) }

/-- The operations with their times. -/
def run (s : TableState) (ops : List (TableOp × Nat)) : TableState := ops.foldl (fun s op => s.apply op.2 op.1) s

/-- From `now` on a key is refused only within the time to live after its last insertion. -/
def NoLonger (s : TableState) (now : Nat) : Prop :=
  ∀ key t, now ≤ t → (s.table.tryInsert key t).1 = false →
    ∃ i, s.last key = some i ∧ t < i.time + s.table.ttl

/-- From `now` on a key inserted since the last load is refused exactly within the time to live after that, and a key that
was never inserted is not. -/
structure Exactly (s : TableState) (now : Nat) : Prop where
  since : ∀ key i, s.last key = some i → i.loaded = false →
    ∀ t, now ≤ t → ((s.table.tryInsert key t).1 = false ↔ t < i.time + s.table.ttl)
  never : ∀ key, s.last key = none → ∀ t, (s.table.tryInsert key t).1 = true

/-- What the file has left for a key, counted from a load at `now`, does not outlast the time to live after the key's last
insertion. -/
def InTime (s : TableState) (now : Nat) : Prop :=
  ∀ e ∈ s.file.getD [], 0 < e.2 → ∃ i, s.last e.1 = some i ∧ now + SECOND * e.2 ≤ i.time + s.table.ttl

/-- What holds of the table, its file and the insertions at `now`. -/
structure Inv (s : TableState) (now : Nat) : Prop where
  distinct     : DedupTable.Distinct s.table.entries
  distinctFile : ∀ f, s.file = some f → DedupTable.Distinct f
  known        : ∀ e ∈ s.table.entries, s.last e.1 ≠ none
  knownFile    : ∀ e ∈ s.file.getD [], s.last e.1 ≠ none
  since        : ∀ key i, s.last key = some i → i.loaded = false →
    (now < i.time + s.table.ttl → (key, i.time + s.table.ttl) ∈ s.table.entries) ∧
    ∀ exp, (key, exp) ∈ s.table.entries → exp = i.time + s.table.ttl

variable {s : TableState} {now now' : Nat}

theorem apply_tryInsert (s : TableState) (now : Nat) (key : Planned) :
    (s.table.tryInsert key now).1 = false ∧ s.apply now (.tryInsert key) = s ∨
    (s.table.tryInsert key now).1 = true ∧ s.apply now (.tryInsert key) =
      { s with table := (s.table.tryInsert key now).2, last := Function.update s.last key (some ⟨now, false⟩) } := by
  cases hfresh : (s.table.tryInsert key now).1 with
  | false =>
    refine .inl ⟨rfl, ?_⟩
    unfold apply
    dsimp only
    rw [hfresh, DedupTable.tryInsert_refused hfresh]
    rfl
  | true =>
    refine .inr ⟨rfl, ?_⟩
    unfold apply
    dsimp only
    rw [hfresh]
    rfl

namespace Inv

theorem later (h : s.Inv now) (hle : now ≤ now') : s.Inv now' := by
  refine ⟨h.distinct, h.distinctFile, h.known, h.knownFile, fun key i hi hnew => ?_⟩
  obtain ⟨hheld, honly⟩ := h.since key i hi hnew
  exact ⟨fun hlt => hheld (Nat.lt_of_le_of_lt hle hlt), honly⟩

theorem exactly (h : s.Inv now) : s.Exactly now where
  since := by
    intro key i hi hnew t hle
    obtain ⟨hheld, honly⟩ := h.since key i hi hnew
    rw [DedupTable.refused_iff h.distinct]
    constructor
    · rintro ⟨exp, hmem, hlt⟩
      rw [← honly exp hmem]
      exact hlt
    · intro hlt
      exact ⟨_, hheld (Nat.lt_of_le_of_lt hle hlt), hlt⟩
  never := by
    intro key hnone t
    rw [← Bool.not_eq_false, DedupTable.refused_iff h.distinct]
    rintro ⟨exp, hmem, -⟩
    exact h.known _ hmem hnone

theorem insert (h : s.Inv now) {key : Planned} (hfresh : (s.table.tryInsert key now).1 = true) :
    ({ s with table := (s.table.tryInsert key now).2, last := Function.update s.last key (some ⟨now, false⟩) } :
      TableState).Inv now := by
  have hlast : ∀ k, s.last k ≠ none → Function.update s.last key (some ⟨now, false⟩) k ≠ none := by
    intro k hk
    by_cases heq : k = key
    · rw [heq, Function.update_self]
      exact Option.some_ne_none _
    · rw [Function.update_of_ne heq]
      exact hk
  refine ⟨DedupTable.distinct_tryInsert h.distinct key now, h.distinctFile, fun e he => ?_,
    fun e he => hlast _ (h.knownFile e he), fun k i hi hnew => ?_⟩
  · rcases (DedupTable.mem_tryInsert hfresh).1 he with rfl | ⟨hold, -⟩
    · dsimp only
      rw [Function.update_self]
      exact Option.some_ne_none _
    · exact hlast _ (h.known e hold)
  · dsimp only at hi ⊢
    rw [DedupTable.ttl_tryInsert]
    by_cases heq : k = key
    · subst heq
      rw [Function.update_self] at hi
      cases hi
      refine ⟨fun _ => (DedupTable.mem_tryInsert hfresh).2 (.inl rfl), fun exp hmem => ?_⟩
      rcases (DedupTable.mem_tryInsert hfresh).1 hmem with hsame | ⟨-, hne⟩
      · cases hsame
        rfl
      · exact absurd rfl hne
    · rw [Function.update_of_ne heq] at hi
      obtain ⟨hheld, honly⟩ := h.since k i hi hnew
      refine ⟨fun hlt => (DedupTable.mem_tryInsert hfresh).2 (.inr ⟨hheld hlt, heq⟩), fun exp hmem => ?_⟩
      rcases (DedupTable.mem_tryInsert hfresh).1 hmem with hsame | ⟨hold, -⟩
      · cases hsame
        exact absurd rfl heq
      · exact honly exp hold

/-- **Every operation keeps it.** -/
theorem apply (h : s.Inv now) (op : TableOp) : (s.apply now op).Inv now := by
  cases op with
  | tryInsert key =>
    rcases s.apply_tryInsert now key with ⟨-, heq⟩ | ⟨hfresh, heq⟩
    · rw [heq]
      exact h
    · rw [heq]
      exact h.insert hfresh
  | gc =>
    refine ⟨h.distinct.filter _, h.distinctFile, fun e he => h.known e (DedupTable.mem_gc.1 he).1, h.knownFile,
      fun key i hi hnew => ?_⟩
    obtain ⟨hheld, honly⟩ := h.since key i hi hnew
    exact ⟨fun hlt => DedupTable.mem_gc.2 ⟨hheld hlt, hlt⟩, fun exp hmem => honly exp (DedupTable.mem_gc.1 hmem).1⟩
  | save =>
    refine ⟨h.distinct, fun f hf => ?_, h.known, fun e he => ?_, h.since⟩
    · cases hf
      exact DedupTable.distinct_save h.distinct now
    · obtain ⟨exp, hmem, -⟩ := DedupTable.mem_save.1 he
      exact h.known (e.1, exp) hmem
  | load =>
    have hlast : ∀ k, s.last k ≠ none → (s.last k).map (fun i => ({ i with loaded := true } : Insertion)) ≠ none :=
      fun k hk hnone => hk (Option.map_eq_none_iff.1 hnone)
    refine ⟨DedupTable.distinct_load _ _ _, h.distinctFile, fun e he => ?_, fun e he => hlast _ (h.knownFile e he),
      fun key i hi hnew => ?_⟩
    · obtain ⟨n, hmem, -⟩ := (DedupTable.mem_load h.distinctFile).1 he
      exact hlast _ (h.knownFile (e.1, n) hmem)
    · -- nothing is newer than the load
      obtain ⟨i', -, rfl⟩ := Option.map_eq_some_iff.1 hi
      cases hnew

end Inv

theorem inv_new (ttl now : Nat) : (new ttl).Inv now :=
  ⟨.nil, (fun _ h => by cases h), (fun _ h => by cases h), (fun _ h => by cases h), fun _ _ h => by cases h⟩

theorem noLonger_iff (hd : DedupTable.Distinct s.table.entries) : s.NoLonger now ↔
    ∀ e ∈ s.table.entries, now < e.2 → ∃ i, s.last e.1 = some i ∧ e.2 ≤ i.time + s.table.ttl := by
  have hrefused : ∀ {e : Planned × Nat} {t : Nat}, e ∈ s.table.entries → t < e.2 → (s.table.tryInsert e.1 t).1 = false :=
    fun he hlt => (DedupTable.refused_iff hd).2 ⟨_, he, hlt⟩
  constructor
  · intro h e he hlt
    obtain ⟨i, hi, -⟩ := h e.1 now (Nat.le_refl _) (hrefused he hlt)
    refine ⟨i, hi, ?_⟩
    by_contra hlong
    -- asked for at the end of its time, or now if that is over
    obtain ⟨i', hi', hlt'⟩ := h e.1 (max now (i.time + s.table.ttl)) (Nat.le_max_left _ _) (hrefused he (by omega))
    rw [hi] at hi'
    cases hi'
    omega
  · intro h key t hle href
    obtain ⟨exp, hmem, hlt⟩ := (DedupTable.refused_iff hd).1 href
    obtain ⟨i, hi, hexp⟩ := h _ hmem (Nat.lt_of_le_of_lt hle hlt)
    exact ⟨i, hi, Nat.lt_of_lt_of_le hlt hexp⟩

/-- **A load keeps to the time to live exactly within the condition.** -/
theorem noLonger_load_iff (h : s.Inv now) : (s.apply now .load).NoLonger now ↔ s.InTime now := by
  rw [noLonger_iff (h.apply .load).distinct]
  constructor
  · intro hall e he hpos
    have hmem : (e.1, now + SECOND * e.2) ∈ (s.apply now .load).table.entries :=
      (DedupTable.mem_load h.distinctFile).2 ⟨e.2, he, rfl⟩
    have hlt : now < now + SECOND * e.2 := Nat.lt_add_of_pos_right (Nat.mul_pos (by decide) hpos)
    obtain ⟨i, hi, hle⟩ := hall _ hmem hlt
    obtain ⟨i', hi', rfl⟩ := Option.map_eq_some_iff.1 hi
    exact ⟨i', hi', hle⟩
  · intro hfile e he hlt
    obtain ⟨n, hmem, heq⟩ := (DedupTable.mem_load h.distinctFile).1 he
    have hpos : 0 < n := Nat.pos_of_ne_zero (fun h0 => by
      rw [h0] at heq
      omega)
    obtain ⟨i, hi, hle⟩ := hfile (e.1, n) hmem hpos
    refine ⟨{ i with loaded := true }, Option.map_eq_some_iff.2 ⟨i, hi, rfl⟩, ?_⟩
    rw [heq]
    exact hle

theorem NoLonger.apply (h : s.NoLonger now) (hinv : s.Inv now) {op : TableOp} (hop : op ≠ .load) :
    (s.apply now op).NoLonger now := by
  have hentries := (noLonger_iff hinv.distinct).1 h
  cases op with
  | tryInsert key =>
    rcases s.apply_tryInsert now key with ⟨-, heq⟩ | ⟨hfresh, heq⟩
    · rw [heq]
      exact h
    · have hinv' := hinv.apply (.tryInsert key)
      rw [heq] at hinv' ⊢
      refine (noLonger_iff hinv'.distinct).2 (fun e he hlt => ?_)
      dsimp only
      rw [DedupTable.ttl_tryInsert]
      rcases (DedupTable.mem_tryInsert hfresh).1 he with rfl | ⟨hold, hne⟩
      · exact ⟨⟨now, false⟩, Function.update_self _ _ _, Nat.le_refl _⟩
      · rw [Function.update_of_ne hne]
        exact hentries e hold hlt
  | gc =>
    exact (noLonger_iff (hinv.apply .gc).distinct).2 (fun e he hlt => hentries e (DedupTable.mem_gc.1 he).1 hlt)
  | save => exact h
  | load => exact absurd rfl hop

theorem NoLonger.later (h : s.NoLonger now) (hle : now ≤ now') : s.NoLonger now' :=
  fun key t ht => h key t (Nat.le_trans hle ht)

theorem run_concat (s : TableState) (ops : List (TableOp × Nat)) (op : TableOp × Nat) :
    s.run (ops ++ [op]) = (s.run ops).apply op.2 op.1 := List.foldl_append

/-- The time of the last operation. -/
def clock (ops : List (TableOp × Nat)) : Nat := (ops.getLast?.map Prod.snd).getD 0

theorem clock_le {ops post : List (TableOp × Nat)} {op : TableOp × Nat}
    (h : (ops ++ op :: post).Pairwise (fun a b => a.2 ≤ b.2)) : clock ops ≤ op.2 := by
  unfold clock
  cases hlast : ops.getLast? with
  | none => exact Nat.zero_le _
  | some a => exact (List.pairwise_append.1 h).2.2 a (List.mem_of_getLast? hlast) op List.mem_cons_self

@[simp] theorem clock_concat (ops : List (TableOp × Nat)) (op : TableOp × Nat) : clock (ops ++ [op]) = op.2 := by
  unfold clock
  rw [List.getLast?_concat]
  rfl

theorem inv_run (ttl : Nat) (ops : List (TableOp × Nat)) (hclock : ops.Pairwise (fun a b => a.2 ≤ b.2)) :
    ((new ttl).run ops).Inv (clock ops) := by
  induction ops using List.reverseRecOn with
  | nil => exact inv_new ttl 0
  | append_singleton ops op ih =>
    rw [run_concat, clock_concat]
    exact ((ih (List.pairwise_append.1 hclock).1).later (clock_le hclock)).apply op.1

end TableState

/-- **How long a key is refused.**  Any insertions, clearings, saves and loads of one table, on a clock that never goes
back.  At every moment a key inserted since the last load is refused exactly within the time to live; and no key is ever
refused longer than that exactly when every load meets `InTime`. -/
theorem refused_no_longer_iff (ttl : Nat) (ops : List (TableOp × Nat)) (hclock : ops.Pairwise (fun a b => a.2 ≤ b.2)) :
    (∀ pre post, ops = pre ++ post → ((TableState.new ttl).run pre).Exactly (TableState.clock pre)) ∧
    ((∀ pre post, ops = pre ++ post → ((TableState.new ttl).run pre).NoLonger (TableState.clock pre)) ↔
      ∀ pre now post, ops = pre ++ (.load, now) :: post → ((TableState.new ttl).run pre).InTime now) := by
  have hinv : ∀ pre post, ops = pre ++ post → ((TableState.new ttl).run pre).Inv (TableState.clock pre) := by
    intro pre post heq
    rw [heq] at hclock
    exact TableState.inv_run ttl pre (List.pairwise_append.1 hclock).1
  have hat : ∀ pre op post, ops = pre ++ op :: post → ((TableState.new ttl).run pre).Inv op.2 := by
    intro pre op post heq
    rw [heq] at hclock
    exact (hinv pre _ heq).later (TableState.clock_le hclock)
  refine ⟨fun pre post heq => (hinv pre post heq).exactly, fun h pre now post heq => ?_, fun h pre => ?_⟩
  · have hafter := h (pre ++ [(.load, now)]) post (by rw [heq, List.append_assoc, List.singleton_append])
    rw [TableState.run_concat, TableState.clock_concat] at hafter
    exact (TableState.noLonger_load_iff (hat pre _ post heq)).1 hafter
  · induction pre using List.reverseRecOn with
    | nil =>
      intro post _ key t _ href
      cases href
    | append_singleton pre op ih =>
      intro post heq
      have hsplit : ops = pre ++ op :: post := by rw [heq, List.append_assoc, List.singleton_append]
      have hbefore := hclock
      rw [hsplit] at hbefore
      rw [TableState.run_concat, TableState.clock_concat]
      by_cases hop : op.1 = .load
      · rw [hop]
        refine (TableState.noLonger_load_iff (hat pre op post hsplit)).2 (h pre op.2 post ?_)
        rw [hsplit, ← hop]
      · exact ((ih _ hsplit).later (TableState.clock_le hbefore)).apply (hat pre op post hsplit) hop

namespace Forty

/-- The two missing chunks, as the cleaner asks for them. -/
def gap : Planned := ⟨1, ⟨0, 2⟩, .retransmit⟩

/-- A table of 300 seconds: the gap is inserted, the table saved half a second later, and loaded another half later. -/
def shortStop : List (TableOp × Nat) := [(.tryInsert gap, 0), (.save, SECOND / 2), (.load, SECOND)]

/-- The same with a thousand seconds to the load. -/
def longStop : List (TableOp × Nat) := [(.tryInsert gap, 0), (.save, 0), (.load, 1000 * SECOND)]

end Forty

/-- **Within the dropped half second** nothing is refused for longer. -/
theorem refused_no_longer_short :
    ((TableState.new (300 * SECOND)).run Forty.shortStop).NoLonger SECOND := by
  refine (refused_no_longer_iff (300 * SECOND) Forty.shortStop (by decide)).2.2 ?_ Forty.shortStop [] rfl
  intro pre now post heq
  match pre, heq with
  | [], heq => cases heq
  | [_], heq => cases heq
  | [_, _], heq =>
    cases heq
    intro e he _
    have hfile : e ∈ [(Forty.gap, 299)] := he
    rw [List.mem_singleton.1 hfile]
    exact ⟨⟨0, false⟩, by decide, by decide⟩
  | _ :: _ :: _ :: pre, heq => cases pre <;> cases heq

/-- **After a stop of a thousand seconds** the key is refused 1100 seconds after its only insertion. -/
theorem refused_long_after :
    (((TableState.new (300 * SECOND)).run Forty.longStop).table.tryInsert Forty.gap (1100 * SECOND)).1 = false ∧
    ((TableState.new (300 * SECOND)).run Forty.longStop).last Forty.gap = some ⟨0, true⟩ ∧
    ¬ ((TableState.new (300 * SECOND)).run Forty.longStop).NoLonger (1000 * SECOND) := by
  have href : (((TableState.new (300 * SECOND)).run Forty.longStop).table.tryInsert Forty.gap (1100 * SECOND)).1 = false := by
    decide
  have hlast : ((TableState.new (300 * SECOND)).run Forty.longStop).last Forty.gap = some ⟨0, true⟩ := by decide
  refine ⟨href, hlast, fun h => ?_⟩
  obtain ⟨i, hi, hlt⟩ := h Forty.gap (1100 * SECOND) (by decide) href
  rw [hlast] at hi
  cases hi
  exact absurd hlt (by decide)

/-! ## The requests of a process -/

namespace DedupTable

/-- Of what has not expired the table has just the records. -/
structure Agrees (t : DedupTable) (now : Nat) (recs : List (Planned × Nat)) : Prop where
  distinct : Distinct t.entries
  mem_iff  : ∀ e, now < e.2 → (e ∈ t.entries ↔ e ∈ recs)

namespace Agrees

variable {t : DedupTable} {now : Nat} {recs : List (Planned × Nat)} (h : t.Agrees now recs)

include h

theorem later {now' : Nat} (hle : now ≤ now') : t.Agrees now' recs :=
  ⟨h.distinct, fun e hlt => h.mem_iff e (Nat.lt_of_le_of_lt hle hlt)⟩

theorem refused_iff {p : Planned} {at' : Nat} (hle : now ≤ at') :
    (t.tryInsert p at').1 = false ↔ ∃ exp, (p, exp) ∈ recs ∧ at' < exp := by
  rw [DedupTable.refused_iff h.distinct]
  refine exists_congr (fun exp => and_congr_left (fun hlt => ?_))
  exact h.mem_iff (p, exp) (Nat.lt_of_le_of_lt hle hlt)

theorem insert {p : Planned} (hfresh : (t.tryInsert p now).1 = true) :
    (t.tryInsert p now).2.Agrees now (recs ++ [(p, now + t.ttl)]) := by
  refine ⟨distinct_tryInsert h.distinct p now, fun e hlt => ?_⟩
  rw [mem_tryInsert hfresh, List.mem_append, List.mem_singleton]
  constructor
  · rintro (hnew | ⟨hold, -⟩)
    · exact .inr hnew
    · exact .inl ((h.mem_iff e hlt).1 hold)
  · rintro (hold | hnew)
    · refine .inr ⟨(h.mem_iff e hlt).2 hold, fun hkey => ?_⟩
      -- an entry of that key would have refused it
      have hrefused := (@refused_iff t now recs h p now (Nat.le_refl now)).2 ⟨e.2, by rw [← hkey]; exact hold, hlt⟩
      rw [hfresh] at hrefused
      cases hrefused
    · exact .inl hnew

theorem gc : (t.gc now).Agrees now recs := by
  refine ⟨h.distinct.filter _, fun e hlt => ?_⟩
  rw [mem_gc, h.mem_iff e hlt]
  exact and_iff_left hlt

end Agrees

end DedupTable

namespace Cleaner

/-- **A pass enters into the table what it asks for**, whatever is answered. -/
theorem agrees_after {σ : Type} {call : σ → SenderRequest → Reply × σ} {status : Option (List SenderQueueSnapshot)}
    {budget : LinkBudget} {rd : Readings} {dedup : DedupTable} {env : σ} {recs : List (Planned × Nat)}
    (h : dedup.Agrees (rd.lookedUp 0) recs) (planned : List Planned) :
    (after call status budget rd dedup env planned).dedup.Agrees (rd.lookedUp planned.length)
      (recs ++ (issued call status budget rd dedup env planned).map (fun i => (i.planned, i.lookedUp + dedup.ttl))) := by
  refine @issued_induction σ call status budget rd dedup env (fun k is t => t.ttl = dedup.ttl ∧
    t.Agrees (rd.lookedUp k) (recs ++ is.map (fun i => (i.planned, i.lookedUp + dedup.ttl)))) planned ⟨rfl, ?_⟩ ?_ ?_
    planned [] (List.append_nil _).symm |>.2
  · rw [List.map_nil, List.append_nil]
    exact h
  · exact fun k is t ht => ⟨ht.1, ht.2.later (rd.mono (Nat.le_succ k))⟩
  · rintro pre p post - hasks ⟨httl, hagrees⟩
    refine ⟨by rw [DedupTable.ttl_tryInsert, httl], ?_⟩
    have hins := hagrees.insert hasks.fresh
    rw [httl, List.append_assoc] at hins
    rw [List.map_append]
    exact hins.later (rd.mono (Nat.le_succ _))

namespace Process

variable {σ : Type} {crc : Bytes → UInt32} {call : σ → SenderRequest → Reply × σ} {s : Process} {x : PassInput σ}

theorem ttl_step (s : Process) (x : PassInput σ) : (s.step crc call x).dedup.ttl = s.dedup.ttl := by
  rw [step_eq]
  exact ttl_after (x.planned crc)

/-- **One pass**: its table has the earlier requests and its own. -/
theorem agrees_step {old : List (Planned × Nat)} (h : s.dedup.Agrees (x.rd.lookedUp 0) (old ++ s.recs)) :
    (s.step crc call x).dedup.Agrees (x.endsAt crc) (old ++ (s.step crc call x).recs) := by
  have hafter := (@agrees_after σ call x.status x.cfg.budget x.rd s.dedup x.env _ h (x.planned crc)).gc
  unfold recs at hafter ⊢
  rw [ttl_step, step_eq, List.map_append, ← List.append_assoc]
  exact hafter

/-- **All passes so far**, from a table that was loaded at `started`. -/
theorem agrees_run {loaded : DedupTable} (hd : DedupTable.Distinct loaded.entries) {started : Nat}
    (xs : List (PassInput σ)) (hclock : xs.Pairwise (fun x y => x.endsAt crc ≤ y.rd.lookedUp 0))
    (hstart : ∀ x ∈ xs, started ≤ x.rd.lookedUp 0) :
    (run crc call ⟨[], loaded⟩ xs).dedup.ttl = loaded.ttl ∧
    ∀ now, started ≤ now → (∀ x ∈ xs, x.endsAt crc ≤ now) →
      (run crc call ⟨[], loaded⟩ xs).dedup.Agrees now (loaded.entries ++ (run crc call ⟨[], loaded⟩ xs).recs) := by
  induction xs using List.reverseRecOn with
  | nil =>
    refine ⟨rfl, fun now _ _ => ⟨hd, fun e _ => ?_⟩⟩
    show e ∈ loaded.entries ↔ e ∈ loaded.entries ++ []
    rw [List.append_nil]
  | append_singleton xs x ih =>
    obtain ⟨hbefore, -, hlast⟩ := List.pairwise_append.1 hclock
    obtain ⟨httl, hagrees⟩ := ih hbefore (fun y hy => hstart y (List.mem_append_left _ hy))
    have hx : x ∈ xs ++ [x] := List.mem_append_right _ List.mem_cons_self
    rw [run_concat]
    refine ⟨(ttl_step _ x).trans httl, fun now _ hnow => ?_⟩
    have hready := hagrees (x.rd.lookedUp 0) (hstart x hx) (fun y hy => hlast y hy x List.mem_cons_self)
    exact (agrees_step hready).later (hnow x hx)

end Process

end Cleaner

/-- **A request is kept for the time to live, whatever the sender answers.**  Passes of one process, one after another, with
any plans and any answers.  After a pass the entry of a request it made is in the table exactly if the time to live is not
over; and after the last pass an item is refused exactly within the time to live of a request for it, or while an entry
from the file lasts. -/
theorem request_kept_for_ttl {σ : Type} (crc : Bytes → UInt32) (call : σ → SenderRequest → Reply × σ)
    (file : Option (List (Planned × Nat))) (ttl started : Nat) (xs : List (Cleaner.PassInput σ))
    (hclock : xs.Pairwise (fun x y => x.endsAt crc ≤ y.rd.lookedUp 0)) (hstart : ∀ x ∈ xs, started ≤ x.rd.lookedUp 0) :
    (∀ pre x post, xs = pre ++ x :: post →
      ∀ i ∈ (Cleaner.Process.run crc call ⟨[], .load file ttl started⟩ pre).issued call x (x.planned crc),
        ((i.planned, i.lookedUp + ttl) ∈
            (Cleaner.Process.run crc call ⟨[], .load file ttl started⟩ (pre ++ [x])).dedup.entries ↔
          x.endsAt crc < i.lookedUp + ttl)) ∧
    ∀ p t, started ≤ t → (∀ x ∈ xs, x.endsAt crc ≤ t) →
      (((Cleaner.Process.run crc call ⟨[], .load file ttl started⟩ xs).dedup.tryInsert p t).1 = false ↔
        (∃ i ∈ (Cleaner.Process.run crc call ⟨[], .load file ttl started⟩ xs).history,
          i.planned = p ∧ t < i.lookedUp + ttl) ∨
        ∃ exp, (p, exp) ∈ (DedupTable.load file ttl started).entries ∧ t < exp) := by
  have hd := DedupTable.distinct_load file ttl started
  constructor
  · intro pre x post heq i hi
    have hsplit : xs = (pre ++ [x]) ++ post := by rw [heq, List.append_assoc, List.singleton_append]
    rw [hsplit] at hclock hstart
    obtain ⟨hupto, -, -⟩ := List.pairwise_append.1 hclock
    obtain ⟨hbefore, -, hlast⟩ := List.pairwise_append.1 hupto
    have hends : ∀ y ∈ pre ++ [x], y.endsAt crc ≤ x.endsAt crc := by
      intro y hy
      rcases List.mem_append.1 hy with hy | hy
      · exact Nat.le_trans (hlast y hy x List.mem_cons_self) (x.rd.mono (Nat.zero_le _))
      · rw [List.mem_singleton.1 hy]
    have hx : started ≤ x.endsAt crc :=
      Nat.le_trans (hstart x (List.mem_append_left _ (List.mem_append_right _ List.mem_cons_self))) (x.rd.mono (Nat.zero_le _))
    obtain ⟨httl, hagrees⟩ := @Cleaner.Process.agrees_run σ crc call _ hd started (pre ++ [x]) hupto
      (fun y hy => hstart y (List.mem_append_left _ hy))
    constructor
    · intro hmem
      rw [Cleaner.Process.run_concat, Cleaner.Process.step_eq] at hmem
      exact (DedupTable.mem_gc.1 hmem).2
    · intro hlt
      refine ((hagrees _ hx hends).mem_iff _ hlt).2 (List.mem_append_right _ ?_)
      unfold Cleaner.Process.recs
      rw [httl, Cleaner.Process.run_concat, Cleaner.Process.step_eq]
      exact List.mem_map.2 ⟨i, List.mem_append_right _ hi, rfl⟩
  · intro p t hle hends
    obtain ⟨httl, hagrees⟩ := @Cleaner.Process.agrees_run σ crc call _ hd started xs hclock hstart
    rw [(hagrees t hle hends).refused_iff (Nat.le_refl t)]
    unfold Cleaner.Process.recs
    rw [httl]
    constructor
    · rintro ⟨exp, hmem, hlt⟩
      rcases List.mem_append.1 hmem with hold | hrec
      · exact .inr ⟨exp, hold, hlt⟩
      · obtain ⟨i, hi, hsame⟩ := List.mem_map.1 hrec
        cases hsame
        exact .inl ⟨i, hi, rfl, hlt⟩
    · rintro (⟨i, hi, rfl, hlt⟩ | ⟨exp, hold, hlt⟩)
      · exact ⟨_, List.mem_append_right _ (List.mem_map.2 ⟨i, hi, rfl⟩), hlt⟩
      · exact ⟨exp, List.mem_append_left _ hold, hlt⟩

namespace Forty

/-- A sender that gives every request the same answer. -/
def answers (reply : Reply) (u : Unit) (_ : SenderRequest) : Reply × Unit := (reply, u)

theorem run_answered (reply : Reply) :
    Cleaner.Process.run crc32 (answers reply) ⟨[], .load none (300 * SECOND) 0⟩ [passOn named 0] =
      ⟨[⟨gap, 0, 0, 0, reply⟩], ⟨[(gap, 300 * SECOND)], 300 * SECOND⟩⟩ := by
  rw [Cleaner.Process.run, List.foldl_cons, List.foldl_nil, Cleaner.Process.step_eq, Cleaner.PassInput.endsAt, planned_passOn,
    plan_named]
  cases reply <;> rfl

end Forty

/-- A rejected request is refused for 300 seconds, and then no more. -/
theorem request_kept_for_ttl_rejected :
    ((Cleaner.Process.run crc32 (Forty.answers .rejected) ⟨[], .load none (300 * SECOND) 0⟩
      [Forty.passOn Forty.named 0]).dedup.tryInsert Forty.gap (299 * SECOND)).1 = false ∧
    ((Cleaner.Process.run crc32 (Forty.answers .rejected) ⟨[], .load none (300 * SECOND) 0⟩
      [Forty.passOn Forty.named 0]).dedup.tryInsert Forty.gap (300 * SECOND)).1 ≠ false := by
  have hends : ∀ t, ∀ x ∈ [Forty.passOn Forty.named 0], x.endsAt crc32 ≤ t := by
    intro t x hx
    rw [List.mem_singleton.1 hx]
    exact Nat.zero_le t
  have hkept := (request_kept_for_ttl crc32 (Forty.answers .rejected) none (300 * SECOND) 0 [Forty.passOn Forty.named 0]
    (List.pairwise_singleton _ _) (fun _ _ => Nat.zero_le _)).2
  constructor
  · rw [hkept Forty.gap (299 * SECOND) (Nat.zero_le _) (hends _), Forty.run_answered]
    exact .inl ⟨_, List.mem_cons_self, rfl, by decide⟩
  · rw [Ne, hkept Forty.gap (300 * SECOND) (Nat.zero_le _) (hends _), Forty.run_answered]
    rintro (⟨i, hi, -, hlt⟩ | ⟨exp, hold, -⟩)
    · rw [List.mem_singleton.1 hi] at hlt
      exact absurd hlt (by decide)
    · cases hold

/-- **A sender that cannot be reached**: the request fails, its entry stays, and the pass a second later asks for nothing. -/
theorem failed_request_kept :
    (Cleaner.Process.run crc32 (Forty.answers .failed) ⟨[], .load none (300 * SECOND) 0⟩ [Forty.passOn Forty.named 0]).history =
      [⟨Forty.gap, 0, 0, 0, .failed⟩] ∧
    (Forty.gap, 300 * SECOND) ∈ (Cleaner.Process.run crc32 (Forty.answers .failed) ⟨[], .load none (300 * SECOND) 0⟩
      [Forty.passOn Forty.named 0]).dedup.entries ∧
    (Cleaner.Process.run crc32 (Forty.answers .failed) ⟨[], .load none (300 * SECOND) 0⟩
      [Forty.passOn Forty.named 0, Forty.passOn Forty.named SECOND]).history = [⟨Forty.gap, 0, 0, 0, .failed⟩] := by
  have hfirst := Forty.run_answered .failed
  have hsecond := @Cleaner.Process.run_concat _ crc32 (Forty.answers .failed) ⟨[], .load none (300 * SECOND) 0⟩
    [Forty.passOn Forty.named 0] (Forty.passOn Forty.named SECOND)
  rw [List.singleton_append, hfirst, Cleaner.Process.step_eq, Forty.planned_passOn, Forty.plan_named] at hsecond
  rw [hsecond, hfirst]
  exact ⟨rfl, List.mem_cons_self, rfl⟩

end Parachuter
