import Mathlib.Data.List.Basic
/-!
# Unix paths as text — components, `push` and lexical resolution

A path is a list of characters.  `components` reads it as `Path::components` does: separators repeat and trail freely, `.`
counts only as the first piece of a relative path, `..` is kept.  `push` is `PathBuf::push`: an absolute part replaces the
path, another is put behind one separator.  `components_push` says what the components of the result are, `resolve` follows
components without looking at a file system.
-/
namespace UnixPath

abbrev Text := List Char

inductive Component
  | rootDir
  | curDir
  | parentDir
  | normal (part : Text)
  deriving DecidableEq, Repr

def Component.isNormal : Component → Bool
  | normal _ => true
  | _        => false

/-- A piece between separators; `none` where it does not count. -/
def component? : Text → Option Component
  | []         => none
  | ['.']      => none
  | ['.', '.'] => some .parentDir
  | part       => some (.normal part)

def pieces (p : Text) : List Component := (p.splitOn '/').filterMap component?

/-- What stands before the pieces. -/
def front (p : Text) : List Component :=
  if p.head? = some '/' then [.rootDir]
  else if (p.splitOn '/').head? = some ['.'] then [.curDir]
  else []

def components (p : Text) : List Component := front p ++ pieces p

def push (out part : Text) : Text :=
  if part.head? = some '/' then part
  else if out = [] ∨ out.getLast? = some '/' then out ++ part
  else out ++ '/' :: part

/-- A relative path whose first piece is not `.`. -/
def Plain (p : Text) : Prop := front p = []

/-! ## Splitting -/

theorem pieces_append_sep (a b : Text) : pieces (a ++ '/' :: b) = pieces a ++ pieces b := by
  rw [pieces, List.splitOn_append_cons_self, List.filterMap_append]
  rfl

@[simp] theorem pieces_nil : pieces [] = [] := rfl

theorem front_append_sep {a : Text} (h : a ≠ []) (b : Text) : front (a ++ '/' :: b) = front a := by
  have hhead : (a ++ '/' :: b).head? = a.head? := by
    cases a with
    | nil => exact absurd rfl h
    | cons c a => rfl
  have hsplit : ((a ++ '/' :: b).splitOn '/').head? = (a.splitOn '/').head? := by
    rw [List.splitOn_append_cons_self]
    cases hs : a.splitOn '/' with
    | nil => exact absurd hs (List.splitOn_ne_nil _ _)
    | cons s l => rfl
  rw [front, front, hhead, hsplit]

theorem components_append_sep {a : Text} (h : a ≠ []) (b : Text) : components (a ++ '/' :: b) = components a ++ pieces b := by
  rw [components, front_append_sep h, pieces_append_sep, ← List.append_assoc, components]

theorem components_trailing {a : Text} (h : a ≠ []) : components (a ++ ['/']) = components a := by
  rw [components_append_sep h, pieces_nil, List.append_nil]

theorem Plain.head?_ne {p : Text} (h : Plain p) : p.head? ≠ some '/' := by
  intro hc
  rw [Plain, front, if_pos hc] at h
  cases h

/-- **Pushing a plain path** puts its pieces behind the components. -/
theorem components_push (out : Text) {part : Text} (h : Plain part) : components (push out part) = components out ++ pieces part := by
  unfold push
  rw [if_neg h.head?_ne]
  by_cases hnil : out = []
  · subst hnil
    rw [if_pos (.inl rfl), List.nil_append, components, h]
    rfl
  · split
    · rename_i hlast
      obtain ⟨a, rfl⟩ := List.getLast?_eq_some_iff.1 (hlast.resolve_left hnil)
      rw [List.append_assoc, List.singleton_append]
      by_cases ha : a = []
      · subst ha
        rfl
      · rw [components_append_sep ha, components_trailing ha]
    · exact components_append_sep hnil part

/-! ## Parts -/

/-- A piece that counts as a name. -/
structure Name (part : Text) : Prop where
  slash : '/' ∉ part
  reads : component? part = some (.normal part)

theorem component?_eq_normal {s part : Text} (h : component? s = some (.normal part)) : s = part := by
  unfold component? at h
  split at h
  · cases h
  · cases h
  · cases h
  · injection h with h
    injection h

theorem component?_of_ne {s : Text} (h0 : s ≠ []) (h1 : s ≠ ['.']) (h2 : s ≠ ['.', '.']) :
    component? s = some (.normal s) := by
  unfold component?
  split
  · exact absurd rfl h0
  · exact absurd rfl h1
  · exact absurd rfl h2
  · rfl

theorem not_mem_of_mem_splitOn : ∀ (p : Text) {s : Text}, s ∈ p.splitOn '/' → '/' ∉ s
  | [], s, h => by
    rw [List.splitOn_nil, List.mem_singleton] at h
    rw [h]
    exact List.not_mem_nil
  | c :: p, s, h => by
    rw [List.splitOn_cons_eq_if_modifyHead] at h
    split at h
    · rcases List.mem_cons.1 h with rfl | h
      · exact List.not_mem_nil
      · exact not_mem_of_mem_splitOn p h
    · rename_i hc
      -- the character joins the first piece of the rest
      cases hp : p.splitOn '/' with
      | nil => exact absurd hp (List.splitOn_ne_nil _ _)
      | cons x l =>
        rw [hp, List.modifyHead_cons] at h
        rcases List.mem_cons.1 h with rfl | h
        · have hx := not_mem_of_mem_splitOn p (hp ▸ List.mem_cons_self : x ∈ p.splitOn '/')
          rw [List.mem_cons, not_or]
          exact ⟨fun he => hc (by rw [he]; exact beq_self_eq_true _), hx⟩
        · exact not_mem_of_mem_splitOn p (hp ▸ List.mem_cons_of_mem _ h : s ∈ p.splitOn '/')

/-- **Every normal component is a name.** -/
theorem name_of_mem {p part : Text} (h : Component.normal part ∈ components p) : Name part := by
  have hpiece : Component.normal part ∈ pieces p := by
    rcases List.mem_append.1 h with hf | hp
    · unfold front at hf
      split at hf
      · simp at hf
      · split at hf <;> simp at hf
    · exact hp
  obtain ⟨s, hs, hcomp⟩ := List.mem_filterMap.1 hpiece
  obtain rfl := component?_eq_normal hcomp
  exact ⟨not_mem_of_mem_splitOn p hs, hcomp⟩

theorem Name.splitOn {part : Text} (h : Name part) : part.splitOn '/' = [part] := List.splitOn_eq_singleton h.slash

theorem Name.ne_nil {part : Text} (h : Name part) : part ≠ [] := fun he => by
  have := h.reads
  rw [he] at this
  cases this

theorem Name.pieces {part : Text} (h : Name part) : pieces part = [.normal part] := by
  rw [UnixPath.pieces, h.splitOn, List.filterMap_cons, h.reads]
  rfl

theorem Name.ne_dot {part : Text} (h : Name part) : part ≠ ['.'] := fun he => by
  have := h.reads
  rw [he] at this
  cases this

theorem Name.head?_append {part : Text} (h : Name part) (q : Text) : (part ++ q).head? ≠ some '/' := by
  have hne := h.ne_nil
  have hslash := h.slash
  cases part with
  | nil => exact absurd rfl hne
  | cons c part => exact fun hc => hslash (by rw [Option.some.inj hc]; exact List.mem_cons_self)

theorem Name.plain {part : Text} (h : Name part) : Plain part := by
  have hhead := h.head?_append []
  rw [List.append_nil] at hhead
  rw [Plain, front, if_neg hhead, h.splitOn, List.head?_cons, if_neg (fun hc => h.ne_dot (Option.some.inj hc))]

theorem Name.components_push {part : Text} (h : Name part) (out : Text) :
    components (push out part) = components out ++ [.normal part] := by
  rw [UnixPath.components_push out h.plain, h.pieces]

/-! ## Joined names -/

theorem Name.getLast?_push {part : Text} (h : Name part) (out : Text) : (push out part).getLast? ≠ some '/' := by
  have hlast : (push out part).getLast? = part.getLast? := by
    unfold push
    rw [if_neg h.plain.head?_ne]
    split
    · rw [List.getLast?_append_of_ne_nil _ h.ne_nil]
    · rw [List.getLast?_append_of_ne_nil _ (List.cons_ne_nil _ _), List.getLast?_cons_of_ne_nil h.ne_nil]
  rw [hlast]
  exact fun hc => h.slash (List.mem_of_getLast? hc)

/-- What is pushed behind a name goes behind a separator. -/
theorem Name.push_push {part : Text} (h : Name part) (out : Text) {q : Text} (hq : q.head? ≠ some '/') :
    push (push out part) q = push out (part ++ '/' :: q) := by
  have hsep : push (push out part) q = push out part ++ '/' :: q := by
    have hne : push out part ≠ [] := by
      unfold push
      rw [if_neg h.plain.head?_ne]
      split <;> simp [h.ne_nil]
    rw [push, if_neg hq, if_neg (not_or.2 ⟨hne, h.getLast?_push out⟩)]
  rw [hsep]
  unfold push
  rw [if_neg h.plain.head?_ne, if_neg (h.head?_append _)]
  split
  · rw [List.append_assoc]
  · rw [List.append_assoc, List.cons_append]

theorem head?_intercalate {part : Text} (h : Name part) (parts : List Text) :
    (['/'].intercalate (part :: parts)).head? ≠ some '/' := by
  cases parts with
  | nil => simpa using h.plain.head?_ne
  | cons q parts =>
    rw [List.intercalate_cons_cons, List.append_assoc]
    exact h.head?_append _

/-- **Pushing names one by one is pushing them joined.** -/
theorem foldl_push : ∀ (parts : List Text) (out : Text), parts ≠ [] → (∀ part ∈ parts, Name part) →
    parts.foldl push out = push out (['/'].intercalate parts)
  | [], _, h, _                     => absurd rfl h
  | [part], out, _, _               => by simp
  | part :: q :: parts, out, _, h => by
    have hrest := fun p hp => h p (List.mem_cons_of_mem part hp)
    have hq := head?_intercalate (hrest q List.mem_cons_self) parts
    rw [List.foldl_cons, foldl_push (q :: parts) _ (List.cons_ne_nil _ _) hrest,
      (h part List.mem_cons_self).push_push out hq, List.intercalate_cons_cons, List.append_assoc]
    rfl

/-- The components of names joined, with a root before them or none. -/
theorem pieces_intercalate {parts : List Text} (hne : parts ≠ []) (h : ∀ part ∈ parts, Name part) :
    pieces (['/'].intercalate parts) = parts.map .normal := by
  rw [pieces, List.splitOn_intercalate '/' (fun part hp => (h part hp).slash) hne]
  clear hne
  induction parts with
  | nil => rfl
  | cons part parts ih =>
    rw [List.filterMap_cons, (h part List.mem_cons_self).reads, ih (fun p hp => h p (List.mem_cons_of_mem _ hp))]
    rfl

theorem plain_intercalate {parts : List Text} (hne : parts ≠ []) (h : ∀ part ∈ parts, Name part) :
    Plain (['/'].intercalate parts) := by
  have hsplit := List.splitOn_intercalate '/' (fun part hp => (h part hp).slash) hne
  cases parts with
  | nil => exact absurd rfl hne
  | cons part parts =>
    have hpart := h part List.mem_cons_self
    rw [Plain, front, if_neg (head?_intercalate hpart parts), hsplit, List.head?_cons,
      if_neg (fun hc => hpart.ne_dot (Option.some.inj hc))]

theorem components_root (p : Text) : components ('/' :: p) = .rootDir :: pieces p := by
  have hpieces : pieces ('/' :: p) = pieces p := pieces_append_sep [] p
  rw [components, front, List.head?_cons, if_pos rfl, hpieces]
  rfl

/-! ## Following components without a file system -/

/-- The components walked so far, and one more: `..` takes the last name back. -/
def resolveStep (stack : List Component) : Component → List Component
  | .rootDir     => [.rootDir]
  | .curDir      => stack
  | .normal part => stack ++ [.normal part]
  | .parentDir   =>
    match stack.getLast? with
    | some (.normal _) => stack.dropLast
    | some .rootDir    => stack
    | _                => stack ++ [.parentDir]

def resolve (cs : List Component) : List Component := cs.foldl resolveStep []

theorem resolve_append_normal : ∀ (ns cs : List Component), (∀ c ∈ ns, c.isNormal = true) →
    resolve (cs ++ ns) = resolve cs ++ ns
  | [], cs, _      => by rw [List.append_nil, List.append_nil]
  | c :: ns, cs, h => by
    have hc := h c List.mem_cons_self
    have hstep : resolve (cs ++ [c]) = resolve cs ++ [c] := by
      cases c with
      | normal part =>
        rw [resolve, List.foldl_append]
        rfl
      | rootDir => cases hc
      | curDir => cases hc
      | parentDir => cases hc
    have ih := resolve_append_normal ns (cs ++ [c]) (fun c' hc' => h c' (List.mem_cons_of_mem _ hc'))
    rwa [List.append_assoc, List.singleton_append, hstep, List.append_assoc, List.singleton_append] at ih

end UnixPath
