import Mathlib.Data.List.Basic
/-!
# Serial — one object, called by many, one call after another

An object has a state `σ` and answers a call by `serve`; between the calls something else moves it on, by `move`.  A
history is all that happened to it, in order.  `Legal` says that every answer in it is the object's own, given at its
turn; `replay` is the state it leaves.  A system that keeps such a history serves its callers as if they took turns, each
call at one moment.
-/
namespace Serial

variable {κ Op R δ σ : Type}

inductive Entry (κ Op R δ : Type)
  | call (who : κ) (op : Op) (answer : R)
  | change (d : δ)

variable (serve : σ → Op → R × σ) (move : σ → δ → σ)

def Entry.apply (s : σ) : Entry κ Op R δ → σ
  | .call _ op _ => (serve s op).2
  | .change d    => move s d

/-- The state a history leaves. -/
def replay (s : σ) (h : List (Entry κ Op R δ)) : σ := h.foldl (Entry.apply serve move) s

/-- The answer of an entry is the one the object gives in state `s`. -/
def Entry.Right (s : σ) : Entry κ Op R δ → Prop
  | .call _ op answer => (serve s op).1 = answer
  | .change _         => True

def Legal (s : σ) : List (Entry κ Op R δ) → Prop
  | []     => True
  | e :: h => e.Right serve s ∧ Legal (e.apply serve move s) h

/-- The call an entry is, if `k` made it. -/
def Entry.by? [DecidableEq κ] (k : κ) : Entry κ Op R δ → Option (Op × R)
  | .call who op answer => if who = k then some (op, answer) else none
  | .change _           => none

/-- The calls of one caller, with their answers, in order. -/
def calls [DecidableEq κ] (k : κ) (h : List (Entry κ Op R δ)) : List (Op × R) := h.filterMap (Entry.by? k)

/-- The change an entry is, if it is one. -/
def Entry.change? : Entry κ Op R δ → Option δ
  | .call ..  => none
  | .change d => some d

/-- The changes of a history, in order. -/
def changes (h : List (Entry κ Op R δ)) : List δ := h.filterMap Entry.change?

variable {serve move}

@[simp] theorem changes_append (h h' : List (Entry κ Op R δ)) : changes (h ++ h') = changes h ++ changes h' :=
  List.filterMap_append

theorem mem_changes {d : δ} {h : List (Entry κ Op R δ)} : d ∈ changes h ↔ .change d ∈ h := by
  unfold changes
  rw [List.mem_filterMap]
  constructor
  · rintro ⟨e, he, hd⟩
    cases e with
    | call who op answer => cases hd
    | change d' =>
      cases hd
      exact he
  · exact fun hd => ⟨_, hd, rfl⟩

@[simp] theorem replay_append (s : σ) (h h' : List (Entry κ Op R δ)) :
    replay serve move s (h ++ h') = replay serve move (replay serve move s h) h' := List.foldl_append

theorem legal_append : ∀ {s : σ} {h h' : List (Entry κ Op R δ)},
    Legal serve move s (h ++ h') ↔ Legal serve move s h ∧ Legal serve move (replay serve move s h) h'
  | _, [], _      => ⟨fun hl => ⟨trivial, hl⟩, fun hl => hl.2⟩
  | s, e :: h, h' => by
    rw [List.cons_append, Legal, Legal, legal_append, and_assoc]
    rfl

/-- **The answer at its turn**: what the object says in the state left by all that came before. -/
theorem Legal.answer {s : σ} {pre post : List (Entry κ Op R δ)} {who : κ} {op : Op} {answer : R}
    (h : Legal serve move s (pre ++ .call who op answer :: post)) : (serve (replay serve move s pre) op).1 = answer :=
  (legal_append.1 h).2.1

section

variable [DecidableEq κ] (k : κ)

@[simp] theorem calls_append (h h' : List (Entry κ Op R δ)) : calls k (h ++ h') = calls k h ++ calls k h' :=
  List.filterMap_append

@[simp] theorem calls_change (d : δ) : calls k ([.change d] : List (Entry κ Op R δ)) = [] := rfl

theorem calls_call (who : κ) (op : Op) (answer : R) :
    calls k ([.call who op answer] : List (Entry κ Op R δ)) = if who = k then [(op, answer)] else [] := by
  unfold calls Entry.by?
  by_cases hwho : who = k <;> simp [hwho]

/-- A caller's call stands somewhere in the history. -/
theorem exists_of_mem_calls {k : κ} {h : List (Entry κ Op R δ)} {op : Op} {answer : R} (hc : (op, answer) ∈ calls k h) :
    ∃ pre post, h = pre ++ .call k op answer :: post := by
  obtain ⟨e, he, hby⟩ := List.mem_filterMap.1 hc
  obtain ⟨pre, post, rfl⟩ := List.append_of_mem he
  cases e with
  | change d => cases hby
  | call who op' answer' =>
    rw [Entry.by?] at hby
    split at hby
    · rename_i hwho
      cases hby
      subst hwho
      exact ⟨pre, post, rfl⟩
    · cases hby

end

/-- **What every call and every change keeps** holds of the state a history leaves. -/
theorem replay_keeps {P : σ → Prop} (hserve : ∀ s op, P s → P (serve s op).2) :
    ∀ {h : List (Entry κ Op R δ)} {s : σ}, (∀ d, .change d ∈ h → ∀ s, P s → P (move s d)) → P s → P (replay serve move s h)
  | [], _, _, hs       => hs
  | e :: h, s, hd, hs => by
    refine replay_keeps (h := h) hserve (fun d hdm => hd d (List.mem_cons_of_mem _ hdm)) ?_
    cases e with
    | call who op answer => exact hserve s op hs
    | change d => exact hd d List.mem_cons_self s hs

/-- **What stays until something happens**: it still holds, or that happened, at some entry, in the state it found. -/
theorem replay_until {P : σ → Prop} {Q : σ → Entry κ Op R δ → Prop} : ∀ {h : List (Entry κ Op R δ)} {s : σ},
    (∀ e ∈ h, ∀ s, P s → P (e.apply serve move s) ∨ Q s e) → P s →
      P (replay serve move s h) ∨ ∃ pre e post, h = pre ++ e :: post ∧ Q (replay serve move s pre) e
  | [], _, _, hs         => .inl hs
  | e :: h, s, hstep, hs => by
    rcases hstep e List.mem_cons_self s hs with hs' | hq
    · rcases replay_until (h := h) (fun e' he' => hstep e' (List.mem_cons_of_mem _ he')) hs' with hp | ⟨pre, e', post, rfl, hq⟩
      · exact .inl hp
      · exact .inr ⟨e :: pre, e', post, rfl, hq⟩
    · exact .inr ⟨[], e, h, rfl, hq⟩

/-- The entries of a history, each with the state it found. -/
def moments (serve : σ → Op → R × σ) (move : σ → δ → σ) : σ → List (Entry κ Op R δ) → List (σ × Entry κ Op R δ)
  | _, []     => []
  | s, e :: h => (s, e) :: moments serve move (e.apply serve move s) h

end Serial
