import DebugLine.SourcePath
import Mathlib.Tactic

/-!
# Where a joined path leads

A name is followed component by component from the components of its directory. From a directory at
the root every name stays below the root. On a lettered drive the drive is a component like any
other, so a name that climbs far enough leaves it, and `C:` alone is not a path on a drive.
-/

namespace DebugLine.SourcePath

/-- What is left of components that are followed one after another, outermost first. -/
def remaining (rooted : Bool) (parts : List Component) : List Component :=
  (parts.foldl (follow rooted) []).reverse

/-- The components on the way to the directory, and from there to the name. -/
def route (directory name : String) : List Component :=
  components directory.toList ++ components name.toList

/-- The components begin on a lettered drive: with `C:\…`, or with `C:` and something below it. -/
def onDrive : List Component → Bool
  | (letter :: ':' :: '\\' :: _) :: _ => letter.isAlpha
  | [letter, ':'] :: _ :: _ => letter.isAlpha
  | _ => false

/-- From `directory`, which does not start at the root, `name` leads to a place on no drive. -/
def LeadsOffDrive (directory name : String) : Prop :=
  isRooted directory.toList = false ∧ onDrive (remaining false (route directory name)) = false
  deriving Decidable

variable {path : List Char} {parts : List Component} {part : Component} {directory name : String}

theorem isAbsolute_of_isRooted (h : isRooted path = true) :
    isAbsolute (String.ofList path) = true := by
  unfold isAbsolute
  rw [String.toList_ofList]
  cases path with
  | nil => cases h
  | cons c cs =>
    obtain rfl : c = '/' := by simpa [isRooted] using h
    rfl

theorem isAbsolute_iff :
    isAbsolute (String.ofList path) = true ↔ isRooted path = true ∨
      ∃ letter separator rest, path = letter :: ':' :: separator :: rest ∧
        letter.isAlpha = true ∧ (separator = '\\' ∨ separator = '/') := by
  constructor
  · intro h
    unfold isAbsolute at h
    rw [String.toList_ofList] at h
    split at h
    · exact .inl rfl
    · next letter separator rest _ => exact .inr ⟨letter, separator, rest, rfl, by simpa using h⟩
    · cases h
  · rintro (hroot | ⟨letter, separator, rest, rfl, halpha, hseparator⟩)
    · exact isAbsolute_of_isRooted hroot
    · unfold isAbsolute
      rw [String.toList_ofList]
      split
      · rfl
      · next heq => cases heq; simp [halpha, hseparator]
      · next hdrive => exact absurd rfl (hdrive letter separator rest)

theorem components_ne_nil (path : List Char) : components path ≠ [] := by
  induction path with
  | nil => simp [components]
  | cons c cs ih =>
    unfold components
    split_ifs
    · simp
    · split <;> simp

theorem components_append (front back : List Char) :
    components (front ++ '/' :: back) = components front ++ components back := by
  induction front with
  | nil => simp [components]
  | cons c cs ih =>
    simp only [List.cons_append, components, ih]
    split_ifs
    · rfl
    · cases h : components cs with
      | nil => exact absurd h (components_ne_nil cs)
      | cons part parts => rfl

/-- What a path is brought together from again: something, and no slash. -/
def IsPart (part : Component) : Prop := part ≠ [] ∧ '/' ∉ part

theorem slash_notMem_components (h : part ∈ components path) : '/' ∉ part := by
  induction path generalizing part with
  | nil =>
    obtain rfl : part = [] := by simpa [components] using h
    simp
  | cons c cs ih =>
    unfold components at h
    split_ifs at h with hc
    · rcases List.mem_cons.mp h with rfl | h
      · simp
      · exact ih h
    · cases hcs : components cs with
      | nil => exact absurd hcs (components_ne_nil cs)
      | cons first rest =>
        simp only [hcs, List.mem_cons] at h ih
        rcases h with rfl | h
        · simpa [Ne.symm hc] using ih (.inl rfl)
        · exact ih (.inr h)

/-- A component that leads one directory down. -/
def Descends (part : Component) : Prop := part ≠ [] ∧ part ≠ here ∧ part ≠ parent
  deriving Decidable

theorem follow_of_descends {rooted : Bool} {stack : List Component} (h : Descends part) :
    follow rooted stack part = part :: stack := by
  simp [follow, h.1, h.2.1, h.2.2]

theorem follow_of_stays {rooted : Bool} {stack : List Component} (h : part = [] ∨ part = here) :
    follow rooted stack part = stack :=
  if_pos h

@[simp] theorem follow_parent_nil {rooted : Bool} :
    follow rooted [] parent = if rooted then [] else [parent] :=
  rfl

theorem follow_parent_cons {rooted : Bool} {top : Component} {below : List Component} :
    follow rooted (top :: below) parent =
      if top ≠ parent then below else if rooted then top :: below else parent :: top :: below :=
  rfl

theorem isPart_follow {rooted : Bool} {stack : List Component} (hslash : '/' ∉ part)
    (hstack : ∀ p ∈ stack, IsPart p) : ∀ p ∈ follow rooted stack part, IsPart p := by
  have hparent : IsPart parent := by simp [IsPart, parent]
  by_cases hstays : part = [] ∨ part = here
  · rwa [follow_of_stays hstays]
  by_cases hup : part = parent
  · subst hup
    cases stack with
    | nil => cases rooted <;> simp [hparent]
    | cons top below =>
      rw [follow_parent_cons]
      split_ifs
      · exact fun p hp => hstack p (List.mem_cons_of_mem _ hp)
      · exact hstack
      · exact List.forall_mem_cons.mpr ⟨hparent, hstack⟩
  · obtain ⟨hsome, hhere⟩ := not_or.mp hstays
    rw [follow_of_descends ⟨hsome, hhere, hup⟩]
    exact List.forall_mem_cons.mpr ⟨⟨hsome, hslash⟩, hstack⟩

theorem isPart_remaining {rooted : Bool} (hslash : ∀ p ∈ parts, '/' ∉ p) :
    ∀ p ∈ remaining rooted parts, IsPart p := by
  have hfold (stack : List Component) (hstack : ∀ p ∈ stack, IsPart p) :
      ∀ p ∈ parts.foldl (follow rooted) stack, IsPart p := by
    induction parts generalizing stack with
    | nil => exact hstack
    | cons part parts ih =>
      obtain ⟨hpart, hparts⟩ := List.forall_mem_cons.mp hslash
      exact ih hparts _ (isPart_follow hpart hstack)
  simpa [remaining] using hfold [] (by simp)

theorem intercalate_cons (first : Component) (rest : List Component) :
    ∃ behind, List.intercalate ['/'] (first :: rest) = first ++ behind ∧
      (behind = [] ∧ rest = [] ∨ ∃ more, behind = '/' :: more ∧ rest ≠ []) := by
  cases rest with
  | nil => exact ⟨[], by simp, .inl ⟨rfl, rfl⟩⟩
  | cons second rest =>
    refine ⟨'/' :: List.intercalate ['/'] (second :: rest), ?_, .inr ⟨_, rfl, by simp⟩⟩
    rw [List.intercalate_cons_cons]
    simp

theorem isAbsolute_intercalate (hparts : ∀ p ∈ parts, IsPart p) :
    isAbsolute (String.ofList (List.intercalate ['/'] parts)) = onDrive parts := by
  match parts with
  | [] => rfl
  | [] :: rest => exact absurd rfl (hparts [] (by simp)).1
  | (letter :: first) :: rest =>
    have hslash := (hparts (letter :: first) (by simp)).2
    have hletter : letter ≠ '/' := by rintro rfl; simp at hslash
    obtain ⟨behind, hbody, hbehind⟩ := intercalate_cons (letter :: first) rest
    rw [hbody, Bool.eq_iff_iff, isAbsolute_iff]
    match first with
    | [] => rcases hbehind with ⟨rfl, rfl⟩ | ⟨more, rfl, -⟩ <;> simp [isRooted, onDrive, hletter]
    | [colon] =>
      rcases hbehind with ⟨rfl, rfl⟩ | ⟨more, rfl, hrest⟩
      · simp [isRooted, onDrive, hletter]
      · obtain ⟨second, rest, rfl⟩ := List.exists_cons_of_ne_nil hrest
        by_cases hcolon : colon = ':' <;> simp [isRooted, onDrive, hletter, hcolon]
    | colon :: separator :: more =>
      have hseparator : separator ≠ '/' := by rintro rfl; simp at hslash
      by_cases hdrive : colon = ':' ∧ separator = '\\'
      · obtain ⟨rfl, rfl⟩ := hdrive
        simp [isRooted, onDrive, hletter]
      · have honDrive : onDrive ((letter :: colon :: separator :: more) :: rest) = false := by
          unfold onDrive
          split <;> simp_all
        refine iff_of_false ?_ (by simp [honDrive])
        rintro (hroot | ⟨_, _, _, hchars, -, hslash | hslash⟩)
        · exact hletter (by simpa [isRooted] using hroot)
        · simp only [List.cons_append, List.cons.injEq] at hchars
          exact hdrive ⟨hchars.2.1, hchars.2.2.1.trans hslash⟩
        · simp only [List.cons_append, List.cons.injEq] at hchars
          exact hseparator (hchars.2.2.1.trans hslash)

theorem join_eq (h : directory.toList ≠ []) :
    join directory name =
      let rooted := isRooted directory.toList
      let body := List.intercalate ['/'] (remaining rooted (route directory name))
      String.ofList (if rooted then '/' :: body else if body = [] then here else body) := by
  have hempty : directory.isEmpty = false := by
    rw [Bool.eq_false_iff, ne_eq, String.isEmpty_iff]
    rintro rfl
    exact h rfl
  have hroot : isRooted (directory.toList ++ '/' :: name.toList) = isRooted directory.toList := by
    obtain ⟨c, cs, hcs⟩ := List.exists_cons_of_ne_nil h
    simp [hcs, isRooted]
  simp only [join, hempty, Bool.false_eq_true, if_false, normalize, hroot, components_append]
  rfl

/-- Joined to an absolute directory, a name leads to an absolute path unless it leads off the drive
of the directory. -/
theorem isAbsolute_join_iff (h : isAbsolute directory = true) :
    isAbsolute (join directory name) = true ↔ ¬LeadsOffDrive directory name := by
  have hne : directory.toList ≠ [] := by
    intro hnil
    rw [isAbsolute, hnil] at h
    cases h
  rw [join_eq hne, LeadsOffDrive]
  dsimp only
  cases hroot : isRooted directory.toList with
  | true =>
    refine iff_of_true (isAbsolute_of_isRooted ?_) (by simp)
    rw [if_pos rfl]
    rfl
  | false =>
    have hparts : ∀ p ∈ remaining false (route directory name), IsPart p := by
      refine isPart_remaining fun p hp => ?_
      rcases List.mem_append.mp hp with hp | hp <;> exact slash_notMem_components hp
    rw [if_neg Bool.false_ne_true, and_iff_right rfl, Bool.not_eq_false,
      ← isAbsolute_intercalate hparts]
    split_ifs with hbody
    · rw [hbody]
      decide
    · rfl

/-- How often components climb. -/
def climbs (parts : List Component) : Nat := parts.count parent

/-- How often components lead down. -/
def descents (parts : List Component) : Nat := parts.countP fun part => Descends part

theorem climbs_cons (part : Component) (parts : List Component) :
    climbs (part :: parts) = climbs parts + if part = parent then 1 else 0 := by
  simp [climbs, List.count_cons]

theorem descents_cons (part : Component) (parts : List Component) :
    descents (part :: parts) = descents parts + if Descends part then 1 else 0 := by
  simp [descents, List.countP_cons]

/-- Behind its first component, the way to the name never climbs more often than it has led down,
and a drive that is only `C:` keeps something below it. -/
structure KeepsDrive (directory name : String) : Prop where
  climbs_le : ∀ front, front <+: (route directory name).tail → climbs front ≤ descents front
  below : '\\' ∈ (route directory name).headD [] ∨
    climbs (route directory name).tail < descents (route directory name).tail

/-- What lies under the components that are climbed over stays. -/
theorem foldl_follow_of_climbs_le (drive : Component) {above : List Component}
    (habove : ∀ p ∈ above, p ≠ parent)
    (hclimbs : ∀ front, front <+: parts → climbs front ≤ descents front + above.length) :
    ∃ left, parts.foldl (follow false) (above ++ [drive]) = left ++ [drive] ∧
      left.length + climbs parts = above.length + descents parts := by
  induction parts generalizing above with
  | nil => exact ⟨above, rfl, rfl⟩
  | cons part parts ih =>
    have hfront (front : List Component) (h : front <+: parts) :=
      hclimbs (part :: front) (List.cons_prefix_cons.mpr ⟨rfl, h⟩)
    rw [List.foldl_cons, climbs_cons, descents_cons]
    simp only [climbs_cons, descents_cons] at hfront
    by_cases hstays : part = [] ∨ part = here
    · have hup : part ≠ parent := by rcases hstays with rfl | rfl <;> decide
      have hdown : ¬Descends part := fun h => hstays.elim h.1 h.2.1
      rw [follow_of_stays hstays, if_neg hup, if_neg hdown]
      refine ih habove fun front h => ?_
      simpa [hup, hdown] using hfront front h
    by_cases hup : part = parent
    · subst hup
      have hdown : ¬Descends parent := fun h => h.2.2 rfl
      rw [if_pos rfl, if_neg hdown]
      simp only [if_true, if_neg hdown] at hfront
      cases above with
      | nil => exact absurd (hfront [] List.nil_prefix) (by decide)
      | cons top below =>
        obtain ⟨htop, hbelow⟩ := List.forall_mem_cons.mp habove
        rw [List.cons_append, follow_parent_cons, if_pos htop]
        obtain ⟨left, hleft, hlength⟩ := ih hbelow fun front h => by
          have := hfront front h
          rw [List.length_cons] at this
          omega
        refine ⟨left, hleft, ?_⟩
        rw [List.length_cons]
        omega
    · have hdown : Descends part := ⟨(not_or.mp hstays).1, (not_or.mp hstays).2, hup⟩
      rw [follow_of_descends hdown, if_neg hup, if_pos hdown]
      simp only [if_neg hup, if_pos hdown] at hfront
      have hbelow : ∀ p ∈ part :: above, p ≠ parent := List.forall_mem_cons.mpr ⟨hup, habove⟩
      obtain ⟨left, hleft, hlength⟩ := ih hbelow fun front h => by
        have := hfront front h
        rw [List.length_cons]
        omega
      refine ⟨left, hleft, ?_⟩
      rw [List.length_cons] at hlength
      omega

/-- An absolute directory that does not start at the root begins with a drive. -/
theorem exists_drive (h : isAbsolute directory = true) (hroot : isRooted directory.toList = false) :
    ∃ letter more rest, components directory.toList = (letter :: ':' :: more) :: rest ∧
      letter.isAlpha = true ∧ (more = [] ∨ ∃ behind, more = '\\' :: behind) := by
  rw [← String.ofList_toList (s := directory), isAbsolute_iff, hroot] at h
  obtain ⟨letter, separator, rest, hchars, halpha, hseparator⟩ := h.resolve_left Bool.false_ne_true
  have hletter : letter ≠ '/' := by
    rintro rfl
    simp [hchars, isRooted] at hroot
  obtain ⟨first, parts, hparts⟩ := List.exists_cons_of_ne_nil (components_ne_nil rest)
  rcases hseparator with rfl | rfl
  · exact ⟨letter, '\\' :: first, parts, by simp [hchars, components, hletter, hparts], halpha,
      .inr ⟨first, rfl⟩⟩
  · exact ⟨letter, [], first :: parts, by simp [hchars, components, hletter, hparts], halpha,
      .inl rfl⟩

theorem KeepsDrive.not_leadsOffDrive (hkeeps : KeepsDrive directory name)
    (h : isAbsolute directory = true) : ¬LeadsOffDrive directory name := by
  rintro ⟨hroot, hleads⟩
  obtain ⟨letter, more, rest, hparts, halpha, hmore⟩ := exists_drive h hroot
  obtain ⟨hclimbs, hbelow⟩ := hkeeps
  have hroute : route directory name =
      (letter :: ':' :: more) :: (rest ++ components name.toList) := by
    rw [route, hparts, List.cons_append]
  rw [hroute, List.tail_cons] at hclimbs hbelow
  have hnone : ∀ p ∈ ([] : List Component), p ≠ parent := by simp
  obtain ⟨left, hleft, hlength⟩ := foldl_follow_of_climbs_le (letter :: ':' :: more) hnone
    (by simpa using hclimbs)
  have hdrive : Descends (letter :: ':' :: more) := by simp [Descends, here, parent]
  have hremaining :
      remaining false (route directory name) = (letter :: ':' :: more) :: left.reverse := by
    rw [remaining, hroute, List.foldl_cons, follow_of_descends hdrive, ← List.nil_append [_], hleft]
    simp
  rw [hremaining] at hleads
  rcases hmore with rfl | ⟨behind, rfl⟩
  · have hletter : letter ≠ '\\' := by
      rintro rfl
      exact absurd halpha (by decide)
    have hsome : left.reverse ≠ [] := by
      have hlt := hbelow.resolve_left (by simp [hletter.symm])
      rintro hnil
      rw [List.reverse_eq_nil_iff.mp hnil] at hlength
      simp at hlength
      omega
    obtain ⟨second, more, hsecond⟩ := List.exists_cons_of_ne_nil hsome
    simp [hsecond, onDrive, halpha] at hleads
  · simp [onDrive, halpha] at hleads

end DebugLine.SourcePath
