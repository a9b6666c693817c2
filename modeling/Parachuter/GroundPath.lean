import Parachuter.Basic
import Parachuter.Lib.UnixPath
/-!
# Where a name lands, as text (`ground_path` in `reconcile.rs`)

`groundPath` maps names to lists of components.  `groundPathText` is the function of the source, one `push` after another
on the text of the final directory.  The components it pushes are names, so no push replaces the path and none leads up:
the result is the final directory followed by the names of the payload path (`components_groundPathText`).
-/
namespace Parachuter

open UnixPath (Component)

/-- The loop body of `ground_path`. -/
def pushNormal (out : Text) : Component → Text
  | .normal part => UnixPath.push out part
  | _            => out

def groundPathText (finalDir payloadPath : Text) : Text := (UnixPath.components payloadPath).foldl pushNormal finalDir

def name? : Component → Option Text
  | .normal part => some part
  | _            => none

/-- The names of a path, as the other modules write it. -/
def namesOf (cs : List Component) : Path := cs.filterMap name?

theorem components_foldl_pushNormal : ∀ (cs : List Component) (out : Text), (∀ part, .normal part ∈ cs → UnixPath.Name part) →
    UnixPath.components (cs.foldl pushNormal out) = UnixPath.components out ++ cs.filter Component.isNormal
  | [], out, _      => (List.append_nil _).symm
  | c :: cs, out, h => by
    have ih := components_foldl_pushNormal cs (pushNormal out c) (fun part hp => h part (List.mem_cons_of_mem _ hp))
    rw [List.foldl_cons, ih]
    cases c with
    | normal part =>
      have hname := h part List.mem_cons_self
      show UnixPath.components (UnixPath.push out part) ++ _ = _
      rw [hname.components_push, List.append_assoc]
      rfl
    | rootDir => rfl
    | curDir => rfl
    | parentDir => rfl

/-- **The path of a file on the ground** is the final directory and the names of the payload path, in order. -/
theorem components_groundPathText (finalDir payloadPath : Text) :
    UnixPath.components (groundPathText finalDir payloadPath) =
      UnixPath.components finalDir ++ (UnixPath.components payloadPath).filter Component.isNormal :=
  components_foldl_pushNormal _ _ (fun _ h => UnixPath.name_of_mem h)

theorem foldl_pushNormal_map : ∀ (parts : List Text) (out : Text),
    (parts.map Component.normal).foldl pushNormal out = parts.foldl UnixPath.push out
  | [], _            => rfl
  | part :: parts, out => foldl_pushNormal_map parts (UnixPath.push out part)

/-- **A name spelled as names joined**, with its root or without, lands where the joined names are pushed. -/
theorem groundPathText_joined (finalDir : Text) {parts : List Text} (hne : parts ≠ [])
    (h : ∀ part ∈ parts, UnixPath.Name part) :
    groundPathText finalDir (['/'].intercalate parts) = UnixPath.push finalDir (['/'].intercalate parts) ∧
    groundPathText finalDir ('/' :: ['/'].intercalate parts) = UnixPath.push finalDir (['/'].intercalate parts) := by
  have hpieces := UnixPath.pieces_intercalate hne h
  have hpush : ∀ cs : List Component, cs = [] ∨ cs = [.rootDir] →
      (cs ++ parts.map Component.normal).foldl pushNormal finalDir = UnixPath.push finalDir (['/'].intercalate parts) := by
    rintro cs (rfl | rfl)
    · rw [List.nil_append, foldl_pushNormal_map, UnixPath.foldl_push parts finalDir hne h]
    · rw [List.singleton_append, List.foldl_cons]
      exact (foldl_pushNormal_map _ _).trans (UnixPath.foldl_push parts finalDir hne h)
  constructor
  · rw [groundPathText, UnixPath.components, UnixPath.plain_intercalate hne h, hpieces]
    exact hpush [] (.inl rfl)
  · rw [groundPathText, UnixPath.components_root, hpieces]
    exact hpush [.rootDir] (.inr rfl)

theorem filterMap_name?_pieces : ∀ (l : List Text), (l.filterMap UnixPath.component?).filterMap name? =
    (l.filter (fun c => c ≠ [] ∧ c ≠ ['.'])).filter (· ≠ ['.', '.'])
  | []     => rfl
  | s :: l => by
    have ih := filterMap_name?_pieces l
    by_cases h0 : s = []
    · subst h0
      exact ih
    by_cases h1 : s = ['.']
    · subst h1
      exact ih
    have hkeep : decide (s ≠ [] ∧ s ≠ ['.']) = true := decide_eq_true ⟨h0, h1⟩
    rw [List.filter_cons, if_pos hkeep]
    by_cases h2 : s = ['.', '.']
    · subst h2
      exact ih
    · have hkeep' : decide (s ≠ ['.', '.']) = true := decide_eq_true h2
      rw [List.filter_cons, if_pos hkeep', List.filterMap_cons_some (UnixPath.component?_of_ne h0 h1 h2)]
      exact congrArg (s :: ·) ih

/-- **The names of a text** are the ones the list form keeps. -/
theorem namesOf_components (name : Text) : namesOf (UnixPath.components name) = normalComponents name := by
  have hfront : (UnixPath.front name).filterMap name? = [] := by
    unfold UnixPath.front
    split
    · rfl
    · split <;> rfl
  rw [namesOf, UnixPath.components, List.filterMap_append, hfront, List.nil_append]
  exact filterMap_name?_pieces _

theorem namesOf_filter : ∀ (cs : List Component), namesOf (cs.filter Component.isNormal) = namesOf cs
  | []               => rfl
  | .normal p :: cs  => congrArg (p :: ·) (namesOf_filter cs)
  | .rootDir :: cs   => namesOf_filter cs
  | .curDir :: cs    => namesOf_filter cs
  | .parentDir :: cs => namesOf_filter cs

theorem plain_of_normal {p : Text} (h : ∀ c ∈ UnixPath.components p, c.isNormal = true) : UnixPath.Plain p := by
  unfold UnixPath.Plain
  cases hf : UnixPath.front p with
  | nil => rfl
  | cons c l =>
    have hc := h c (List.mem_append_left _ (by rw [hf]; exact List.mem_cons_self))
    unfold UnixPath.front at hf
    split at hf
    · cases hf
      cases hc
    · split at hf
      · cases hf
        cases hc
      · cases hf

/-- **No file name escapes the final directory**: the path on the ground is the final directory followed by exactly the names
of the payload path, and following it leads there.  A payload path of names alone lands where its text without the root,
however that is spelled, is joined to the final directory. -/
theorem ground_path_stays_under (finalDir payloadPath : Text) :
    let out := groundPathText finalDir payloadPath
    let names := (UnixPath.components payloadPath).filter Component.isNormal
    UnixPath.components out = UnixPath.components finalDir ++ names ∧
    UnixPath.resolve (UnixPath.components out) = UnixPath.resolve (UnixPath.components finalDir) ++ names ∧
    (∀ stripped, (∀ c ∈ UnixPath.components payloadPath, c = .rootDir ∨ c.isNormal = true) →
      UnixPath.components stripped = (UnixPath.components payloadPath).filter (· ≠ .rootDir) →
      UnixPath.components out = UnixPath.components (UnixPath.push finalDir stripped)) ∧
    (∀ parts, parts ≠ [] → (∀ part ∈ parts, UnixPath.Name part) →
      payloadPath = ['/'].intercalate parts ∨ payloadPath = '/' :: ['/'].intercalate parts →
      out = UnixPath.push finalDir (['/'].intercalate parts)) ∧
    namesOf (UnixPath.components out) = groundPath (namesOf (UnixPath.components finalDir)) payloadPath := by
  intro out names
  have hcomps := components_groundPathText finalDir payloadPath
  refine ⟨hcomps, ?_, fun stripped hall hstripped => ?_, fun parts hne hparts hspell => ?_, ?_⟩
  · rw [hcomps]
    exact UnixPath.resolve_append_normal _ _ (fun c hc => (List.mem_filter.1 hc).2)
  · -- less the root, what there is are names
    have hnames : (UnixPath.components payloadPath).filter (· ≠ .rootDir) = names := by
      refine List.filter_congr (fun c hc => ?_)
      rcases hall c hc with rfl | hn
      · rfl
      · rw [hn, decide_eq_true_iff]
        rintro rfl
        cases hn
    rw [hnames] at hstripped
    have hplain : UnixPath.Plain stripped := plain_of_normal (fun c hc => by
      rw [hstripped] at hc
      exact (List.mem_filter.1 hc).2)
    have hpieces : UnixPath.components stripped = UnixPath.pieces stripped := by
      rw [UnixPath.components, hplain, List.nil_append]
    rw [hcomps, UnixPath.components_push finalDir hplain, ← hpieces, hstripped]
  · obtain ⟨hrel, habs⟩ := groundPathText_joined finalDir hne hparts
    rcases hspell with rfl | rfl
    · exact hrel
    · exact habs
  · rw [hcomps, namesOf, List.filterMap_append]
    exact congrArg (namesOf (UnixPath.components finalDir) ++ ·) ((namesOf_filter _).trans (namesOf_components payloadPath))

/-- A name that climbs, and one that does not. -/
theorem ground_path_stays_under_climbing :
    UnixPath.resolve (UnixPath.components (groundPathText "/final".toList "/data/../../etc".toList)) =
      UnixPath.resolve (UnixPath.components "/final".toList) ++ [.normal "data".toList, .normal "etc".toList] ∧
    groundPathText "/final".toList "/data/m31".toList = UnixPath.push "/final".toList "data/m31".toList := by
  have hclimb := (ground_path_stays_under "/final".toList "/data/../../etc".toList).2.1
  have hnames : (UnixPath.components "/data/../../etc".toList).filter Component.isNormal =
      [.normal "data".toList, .normal "etc".toList] := by decide +kernel
  rw [hnames] at hclimb
  refine ⟨hclimb, (ground_path_stays_under "/final".toList "/data/m31".toList).2.2.2.1 ["data".toList, "m31".toList]
    (by decide) (fun part hp => ?_) (.inr (by decide))⟩
  rcases List.mem_cons.1 hp with rfl | hp
  · exact ⟨by decide, by decide⟩
  · obtain rfl := List.mem_singleton.1 hp
    exact ⟨by decide, by decide⟩

end Parachuter
