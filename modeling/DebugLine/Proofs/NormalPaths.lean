import DebugLine.Proofs.SourcePaths

/-!
# The normal form of a path

A path is understood by where it leads: from a stack of directories every component stays, climbs
or descends. A path in normal form first climbs and then descends, and one at the root only
descends. Normalization finds such a path that leads to the same places. How often it climbs and to
which names it descends can be read off these places, so no other path of this form leads there.
-/

namespace DebugLine.SourcePath

/-- Where a component leads from the directories of `stack`, deepest first. Above the outermost
there is none. -/
def enter (stack : List Component) (part : Component) : List Component :=
  if part = [] ∨ part = here then stack
  else if part = parent then stack.tail
  else part :: stack

/-- Where a path leads from the directories of `stack`, or from the root if it starts there. -/
def place (path : List Char) (stack : List Component) : List Component :=
  (components path).foldl enter (if isRooted path then [] else stack)

/-- The path of `name` in `directory`, as it is written. -/
def joined (directory name : String) : List Char :=
  if directory.isEmpty then name.toList else directory.toList ++ '/' :: name.toList

/-- A path in normal form climbs `up` times and then descends to the names of `down`, outermost
first. From the root there is nowhere to climb. -/
@[ext]
structure NormalForm (rooted : Bool) where
  up : Nat
  down : List Component
  up_eq : rooted = true → up = 0
  down_descends : ∀ part ∈ down, Descends part ∧ '/' ∉ part

namespace NormalForm

variable {rooted : Bool}

/-- The components of the path. -/
def parts (form : NormalForm rooted) : List Component :=
  List.replicate form.up parent ++ form.down

/-- The path is its components with single slashes between them, or `/` or `.` if it has none. -/
def path (form : NormalForm rooted) : List Char :=
  let body := List.intercalate ['/'] form.parts
  if rooted then '/' :: body else if form.parts = [] then here else body

/-- Where the path leads from the directories of `stack`. -/
def place (form : NormalForm rooted) (stack : List Component) : List Component :=
  form.down.reverse ++ stack.drop form.up

/-- The path that stays. -/
def stay : NormalForm rooted := ⟨0, [], fun _ => rfl, nofun⟩

theorem isPart (form : NormalForm rooted) : ∀ part ∈ form.parts, IsPart part := by
  intro part hpart
  rcases List.mem_append.mp hpart with hup | hdown
  · rw [List.eq_of_mem_replicate hup]
    simp [IsPart, parent]
  · obtain ⟨hdescends, hslash⟩ := form.down_descends part hdown
    exact ⟨hdescends.1, hslash⟩

end NormalForm

variable {path other : List Char} {parts : List Component} {part : Component} {rooted : Bool}

theorem enter_of_stays {stack : List Component} (h : part = [] ∨ part = here) :
    enter stack part = stack :=
  if_pos h

@[simp] theorem enter_parent (stack : List Component) : enter stack parent = stack.tail := rfl

theorem enter_of_descends {stack : List Component} (h : Descends part) :
    enter stack part = part :: stack := by
  simp [enter, h.1, h.2.1, h.2.2]

theorem NormalForm.exists_follow (form : NormalForm rooted) (hslash : '/' ∉ part) :
    ∃ next : NormalForm rooted,
      follow rooted form.parts.reverse part = next.parts.reverse ∧
      ∀ stack, (rooted = true → stack = []) →
        enter (form.place stack) part = next.place stack := by
  by_cases hstays : part = [] ∨ part = here
  · exact ⟨form, follow_of_stays hstays, fun stack _ => enter_of_stays hstays⟩
  by_cases hup : part = parent
  · subst hup
    obtain ⟨up, down, hup, hdown⟩ := form
    rcases down.eq_nil_or_concat with rfl | ⟨init, last, rfl⟩
    · cases rooted with
      | true =>
        obtain rfl := hup rfl
        refine ⟨stay, rfl, fun stack hstack => ?_⟩
        rw [hstack rfl]
        rfl
      | false =>
        refine ⟨⟨up + 1, [], nofun, nofun⟩, ?_, fun stack _ => ?_⟩
        · cases up with
          | zero => rfl
          | succ up =>
            simp only [parts, List.append_nil, List.reverse_replicate]
            rfl
        · simp [place]
    · have hlast : last ≠ parent := (hdown last (by simp)).1.2.2
      have hinit : ∀ part ∈ init, Descends part ∧ '/' ∉ part := fun part hpart =>
        hdown part (by simp [hpart])
      refine ⟨⟨up, init, hup, hinit⟩, ?_, fun stack _ => ?_⟩
      · simp [parts, follow_parent_cons, hlast]
      · simp [place]
  · have hdescends : Descends part := ⟨(not_or.mp hstays).1, (not_or.mp hstays).2, hup⟩
    have hdown : ∀ p ∈ form.down ++ [part], Descends p ∧ '/' ∉ p := by
      intro p hp
      rcases List.mem_append.mp hp with hp | hp
      · exact form.down_descends p hp
      · rw [List.mem_singleton.mp hp]
        exact ⟨hdescends, hslash⟩
    refine ⟨⟨form.up, form.down ++ [part], form.up_eq, hdown⟩, ?_, fun stack _ => ?_⟩
    · simp [NormalForm.parts, follow_of_descends hdescends]
    · simp [NormalForm.place, enter_of_descends hdescends]

theorem exists_foldl_follow (hslash : ∀ part ∈ parts, '/' ∉ part) (form : NormalForm rooted) :
    ∃ last : NormalForm rooted,
      parts.foldl (follow rooted) form.parts.reverse = last.parts.reverse ∧
      ∀ stack, (rooted = true → stack = []) →
        parts.foldl enter (form.place stack) = last.place stack := by
  induction parts generalizing form with
  | nil => exact ⟨form, rfl, fun _ _ => rfl⟩
  | cons part parts ih =>
    obtain ⟨hpart, hparts⟩ := List.forall_mem_cons.mp hslash
    obtain ⟨next, hfollow, henter⟩ := form.exists_follow hpart
    obtain ⟨last, hlast, hplace⟩ := ih hparts next
    refine ⟨last, ?_, fun stack hstack => ?_⟩
    · rw [List.foldl_cons, hfollow, hlast]
    · rw [List.foldl_cons, henter stack hstack, hplace stack hstack]

theorem exists_intercalate_eq_cons (hne : parts ≠ []) (hparts : ∀ part ∈ parts, IsPart part) :
    ∃ c cs, List.intercalate ['/'] parts = c :: cs ∧ c ≠ '/' := by
  obtain ⟨first, rest, rfl⟩ := List.exists_cons_of_ne_nil hne
  obtain ⟨hfirst, hslash⟩ := hparts first (by simp)
  obtain ⟨c, cs, rfl⟩ := List.exists_cons_of_ne_nil hfirst
  obtain ⟨behind, hjoin, -⟩ := intercalate_cons (c :: cs) rest
  exact ⟨c, cs ++ behind, hjoin, fun hc => hslash (hc ▸ List.mem_cons_self)⟩

theorem exists_normalForm (h : isRooted path = rooted) :
    ∃ form : NormalForm rooted, normalize path = form.path ∧
      ∀ stack, place path stack = form.place (if rooted then [] else stack) := by
  subst h
  obtain ⟨form, hfollow, hplace⟩ :=
    exists_foldl_follow (fun _ => slash_notMem_components) (@NormalForm.stay (isRooted path))
  refine ⟨form, ?_, fun stack => hplace _ fun hroot => if_pos hroot⟩
  have hparts : (components path).foldl (follow (isRooted path)) [] = form.parts.reverse := hfollow
  have hbody : List.intercalate ['/'] form.parts = [] ↔ form.parts = [] := by
    refine ⟨fun hbody => by_contra fun hne => ?_, fun hnil => by rw [hnil]; rfl⟩
    obtain ⟨c, cs, hcons, -⟩ := exists_intercalate_eq_cons hne form.isPart
    rw [hcons] at hbody
    cases hbody
  simp only [normalize, hparts, List.reverse_reverse, NormalForm.path, hbody]

theorem components_of_notMem (h : '/' ∉ path) : components path = [path] := by
  induction path with
  | nil => rfl
  | cons c cs ih =>
    rw [List.mem_cons, not_or] at h
    rw [components, if_neg (Ne.symm h.1), ih h.2]

theorem components_intercalate (hne : parts ≠ []) (hslash : ∀ part ∈ parts, '/' ∉ part) :
    components (List.intercalate ['/'] parts) = parts := by
  induction parts with
  | nil => exact absurd rfl hne
  | cons first rest ih =>
    obtain ⟨hfirst, hrest⟩ := List.forall_mem_cons.mp hslash
    cases rest with
    | nil => simpa using components_of_notMem hfirst
    | cons second rest =>
      rw [List.intercalate_cons_cons, List.append_assoc, List.singleton_append,
        components_append, components_of_notMem hfirst, ih (List.cons_ne_nil _ _) hrest]
      rfl

namespace NormalForm

variable {form : NormalForm rooted}

theorem foldl_enter_parts (form : NormalForm rooted) (stack : List Component) :
    form.parts.foldl enter stack = form.place stack := by
  have hclimb (n : Nat) (stack : List Component) :
      (List.replicate n parent).foldl enter stack = stack.drop n := by
    induction n generalizing stack with
    | zero => rfl
    | succ n ih => rw [List.replicate_succ, List.foldl_cons, enter_parent, ih, List.drop_tail]
  have hdescend (names stack : List Component) (h : ∀ name ∈ names, Descends name) :
      names.foldl enter stack = names.reverse ++ stack := by
    induction names generalizing stack with
    | nil => rfl
    | cons name names ih =>
      obtain ⟨hname, hnames⟩ := List.forall_mem_cons.mp h
      rw [List.foldl_cons, enter_of_descends hname, ih _ hnames]
      simp
  rw [parts, List.foldl_append, hclimb,
    hdescend _ _ fun name hname => (form.down_descends name hname).1]
  rfl

@[simp] theorem isRooted_path (form : NormalForm rooted) : isRooted form.path = rooted := by
  cases rooted with
  | true => rfl
  | false =>
    rw [path, if_neg Bool.false_ne_true]
    split_ifs with hparts
    · rfl
    · obtain ⟨c, cs, hcons, hc⟩ := exists_intercalate_eq_cons hparts form.isPart
      simpa [hcons, isRooted] using hc

theorem path_ne_nil (form : NormalForm rooted) : form.path ≠ [] := by
  cases rooted with
  | true => exact List.cons_ne_nil _ _
  | false =>
    rw [path, if_neg Bool.false_ne_true]
    split_ifs with hparts
    · exact List.cons_ne_nil _ _
    · obtain ⟨c, cs, hcons, -⟩ := exists_intercalate_eq_cons hparts form.isPart
      exact hcons ▸ List.cons_ne_nil _ _

theorem place_path (form : NormalForm rooted) (stack : List Component) :
    SourcePath.place form.path stack = form.place (if rooted then [] else stack) := by
  have hslash : ∀ part ∈ form.parts, '/' ∉ part := fun part hpart => (form.isPart part hpart).2
  rw [SourcePath.place, isRooted_path, ← foldl_enter_parts]
  by_cases hparts : form.parts = []
  · cases rooted <;> simp [path, hparts] <;> rfl
  · cases rooted with
    | true =>
      have hcomponents : components form.path = [] :: form.parts := by
        rw [path, if_pos rfl, components, if_pos rfl, components_intercalate hparts hslash]
      rw [hcomponents, List.foldl_cons, enter_of_stays (.inl rfl)]
    | false =>
      have hcomponents : components form.path = form.parts := by
        rw [path, if_neg Bool.false_ne_true, if_neg hparts, components_intercalate hparts hslash]
      rw [hcomponents, if_neg Bool.false_ne_true]

/-- The normal form can be read off the places where it leads: what it descends to from the top,
and how far it climbs from deep enough. -/
theorem eq_of_place_eq {form other : NormalForm rooted}
    (h : ∀ stack, form.place (if rooted then [] else stack) =
      other.place (if rooted then [] else stack)) : form = other := by
  have hdown : form.down = other.down := by
    have htop := h []
    simpa [place] using htop
  have hup : form.up = other.up := by
    cases rooted with
    | true => rw [form.up_eq rfl, other.up_eq rfl]
    | false =>
      have hdeep := congrArg List.length (h (List.replicate (form.up + other.up) parent))
      simp [place, hdown] at hdeep
      omega
  exact NormalForm.ext hup hdown

theorem path_injective {form other : NormalForm rooted} (h : form.path = other.path) :
    form = other :=
  eq_of_place_eq fun stack => by rw [← place_path, ← place_path, h]

end NormalForm

@[simp] theorem isRooted_normalize (path : List Char) :
    isRooted (normalize path) = isRooted path := by
  obtain ⟨form, hform, -⟩ := @exists_normalForm path _ rfl
  rw [hform, form.isRooted_path]

@[simp] theorem place_normalize (path : List Char) (stack : List Component) :
    place (normalize path) stack = place path stack := by
  obtain ⟨form, hform, hplace⟩ := @exists_normalForm path _ rfl
  rw [hform, form.place_path, hplace]

theorem normalize_eq_iff (h : isRooted path = isRooted other) :
    normalize path = normalize other ↔ ∀ stack, place path stack = place other stack := by
  constructor
  · intro heq stack
    rw [← place_normalize, heq, place_normalize]
  · intro hplaces
    obtain ⟨form, hform, hplace⟩ := exists_normalForm h
    obtain ⟨form', hform', hplace'⟩ := @exists_normalForm other _ rfl
    have heq : form = form' := NormalForm.eq_of_place_eq fun stack => by
      rw [← hplace, ← hplace', hplaces]
    rw [hform, hform', heq]

@[simp] theorem normalize_normalize (path : List Char) :
    normalize (normalize path) = normalize path :=
  (normalize_eq_iff (isRooted_normalize path)).mpr (place_normalize path)

theorem toList_join (directory name : String) :
    (join directory name).toList = normalize (joined directory name) :=
  String.toList_ofList

/-- Joined paths from the same kind of start are equal exactly where they lead to the same
places. -/
theorem join_eq_iff {directory name directory' name' : String}
    (h : isRooted (joined directory name) = isRooted (joined directory' name')) :
    join directory name = join directory' name' ↔
      ∀ stack, place (joined directory name) stack = place (joined directory' name') stack := by
  rw [← normalize_eq_iff h, ← toList_join, ← toList_join, String.toList_inj]

/-- A joined path is in normal form, and of the paths in this form the only one that leads where the
name leads from the directory. -/
theorem join_normal (directory name : String) :
    let path := joined directory name
    let result := (join directory name).toList
    result ≠ [] ∧
    (∃! form : NormalForm (isRooted path), result = form.path) ∧
    isRooted result = isRooted path ∧
    (∀ stack, place result stack = place path stack) ∧
    normalize result = result ∧
    ∀ directory' name', isRooted (joined directory' name') = isRooted path →
      (join directory' name' = join directory name ↔
        ∀ stack, place (joined directory' name') stack = place path stack) := by
  intro path result
  have hresult : result = normalize path := toList_join directory name
  obtain ⟨form, hform, -⟩ := @exists_normalForm path _ rfl
  have hpath : result = form.path := hresult.trans hform
  refine ⟨?_, ⟨form, hpath, fun other hother => ?_⟩, ?_, ?_, ?_, fun directory' name' hroot => ?_⟩
  · rw [hpath]
    exact form.path_ne_nil
  · exact NormalForm.path_injective (hother.symm.trans hpath)
  · rw [hresult, isRooted_normalize]
  · intro stack
    rw [hresult, place_normalize]
  · rw [hresult, normalize_normalize]
  · exact join_eq_iff hroot

/-- Two ways to a file next to the enclosing directory, one of them through directories that are
left again. -/
theorem join_normal_climbing :
    isRooted (joined ".." "a.c") = isRooted (joined "src/../.." "./lib//../a.c") ∧
      join ".." "a.c" = join "src/../.." "./lib//../a.c" ∧
      ∀ stack, place (joined ".." "a.c") stack =
        place (joined "src/../.." "./lib//../a.c") stack := by
  have hroot : isRooted (joined ".." "a.c") = isRooted (joined "src/../.." "./lib//../a.c") := by
    decide
  have hjoin : join ".." "a.c" = join "src/../.." "./lib//../a.c" := by decide
  obtain ⟨-, -, -, -, -, hequal⟩ := join_normal "src/../.." "./lib//../a.c"
  exact ⟨hroot, hjoin, (hequal ".." "a.c" hroot).mp hjoin⟩

end DebugLine.SourcePath
