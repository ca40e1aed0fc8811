import Restyle.Proofs.ImageFit.Remaining

/-! # Moving the fit into a nested block

Of root declarations, what follows them and media blocks the declarations of the
fit move into one nested block; all other nodes stay in order. The block repeats
no declaration, so the value that counts is the one that is declared for the
first time behind all others. Nothing moves a second time.
-/

namespace Restyle.ImageFit

open Text Declaration Lexeme

variable {base media t u className : Text} {ds : List Declaration} {ns : List Node}

section Block

theorem moved_eq (h : Moves base ds u ns) : moved base = ds.eraseDups := by
  have hfold : ∀ es : List Declaration, (∀ e ∈ es, e.value ≠ []) →
      es.foldl (fun ds d => if d.value.isEmpty || ds.contains d then ds else ds ++ [d]) [] =
        es.eraseDups := by
    intro es hes
    induction es using List.reverseRecOn with
    | nil => rfl
    | append_singleton es e ih =>
      have hvalue : e.value.isEmpty = false := by
        simpa using hes e (List.mem_append_right es (List.mem_singleton_self e))
      have hmem : es.eraseDups.contains e = es.contains e := by
        rw [Bool.eq_iff_iff, List.contains_iff_mem, List.contains_iff_mem, List.mem_eraseDups]
      rw [List.foldl_append, ih fun d hd => hes d (List.mem_append_left _ hd), eraseDups_concat]
      simp only [List.foldl_cons, List.foldl_nil, hvalue, Bool.false_or, hmem]
  have hfound : findAll fitDeclaration base = ds := h.findAllFrom (by rfl)
  rw [moved, hfound]
  exact hfold ds fun e he => (h.isFit e he).value

def fullSizes : List Declaration :=
  [⟨"inline-size", "100%"⟩, ⟨"block-size", "100%"⟩]

theorem coverSizes_subset (ds : List Declaration) : coverSizes ds ⊆ fullSizes := by
  unfold coverSizes
  dsimp only
  split_ifs <;> simp [fullSizes]

theorem chunk_coverSizes : ∀ e ∈ coverSizes ds, Chunk e.bare := by
  have hsizes : ∀ e ∈ fullSizes, Chunk e.bare := by decide
  exact fun e he => hsizes e (coverSizes_subset ds he)

theorem join_indented {ts : List Text} (hts : ts ≠ []) :
    "  " ++ join "\n  " ts = join "\n" (ts.map fun t => "  " ++ t) := by
  induction ts with
  | nil => exact absurd rfl hts
  | cons t ts ih =>
    rcases ts with _ | ⟨u, ts⟩
    · simp
    · have hfeed : ("\n  " : Text) = "\n" ++ "  " := rfl
      rw [join_cons_cons, List.map_cons, List.map_cons, join_cons_cons, ← List.map_cons,
        ← ih (List.cons_ne_nil u ts), hfeed]
      simp only [List.append_assoc]

theorem yields_nestedImage (hne : ds ≠ []) (h : ∀ e ∈ ds, Chunk e.bare) :
    Yields [.block "img" (declarationNodes ds)] (nestedImage ds) := by
  have hchunk : Chunk "img" := by decide +kernel
  have hlines : "  " ++ join "\n  " (ds.map Declaration.text) =
      join "\n" (ds.map fun d => "  " ++ d.text) := by
    have htexts := join_indented (mt List.map_eq_nil_iff.mp hne : ds.map Declaration.text ≠ [])
    rwa [List.map_map] at htexts
  have hblock := Yields.block hchunk (yields_chunks h (by decide : Blank "  "))
  have hhead : ("img \x7b\n  " : Text) = "img" ++ " \x7b\n" ++ "  " := by decide
  have htext : nestedImage ds =
      "img" ++ " \x7b\n" ++ "  " ++ join "\n  " (ds.map Declaration.text) ++ "\n\x7d" :=
    congrArg (fun t : Text => t ++ join "\n  " (ds.map Declaration.text) ++ "\n\x7d") hhead
  rw [← hlines, ← List.append_assoc] at hblock
  rwa [htext]

end Block

section Values

def valuesOf (ds : List Declaration) (property : Text) : List Text :=
  (ds.filter (·.property = property)).map (·.value)

/-- No value of the property is declared for the first time behind the first declaration of the one
that counts. -/
def CountsLast (ds : List Declaration) (property : Text) : Prop :=
  ∀ v ∈ lastValue? ds property, ∀ x ∈ valuesOf ds property,
    (valuesOf ds property).idxOf x ≤ (valuesOf ds property).idxOf v

theorem lastValue?_eq (ds : List Declaration) (property : Text) :
    lastValue? ds property = (valuesOf ds property).getLast? := by
  rw [lastValue?, valuesOf, List.getLast?_map]

theorem valuesOf_eraseDups (ds : List Declaration) (property : Text) :
    valuesOf ds.eraseDups property = (valuesOf ds property).eraseDups := by
  rw [valuesOf, valuesOf, ← eraseDups_filter, eraseDups_map]
  rintro ⟨p, v⟩ hx ⟨q, u⟩ hy (rfl : v = u)
  have hp : p = property := by simpa using (List.mem_filter.mp hx).2
  have hq : q = property := by simpa using (List.mem_filter.mp hy).2
  rw [hp, hq]

theorem lastValue?_eraseDups_iff (ds : List Declaration) (property : Text) :
    lastValue? ds.eraseDups property = lastValue? ds property ↔ CountsLast ds property := by
  rw [CountsLast, lastValue?_eq, lastValue?_eq, valuesOf_eraseDups]
  rcases hlast : (valuesOf ds property).getLast? with _ | v
  · have hnil : valuesOf ds property = [] := List.getLast?_eq_none_iff.mp hlast
    simp [hnil]
  · have hv := List.mem_of_getLast? hlast
    simp only [Option.mem_some_iff, forall_eq']
    exact getLast?_eraseDups_eq_some_iff hv

end Values

section Sizes

def Sizeless (ds : List Declaration) : Prop :=
  ∀ e ∈ ds, contains e.value "inline-size" = false ∧ contains e.value "block-size" = false

theorem contains_join {part : Text} (hne : part ≠ []) (hpart : ' ' ∉ part) (ts : List Text) :
    contains (join " " ts) part = ts.any (contains · part) := by
  induction ts with
  | nil => exact contains_nil hne
  | cons t ts ih =>
    rcases ts with _ | ⟨u, ts⟩
    · simp
    · rw [join_space_cons, contains_append_cons hne hpart, ih]
      rfl

theorem contains_text {e : Declaration} (he : e.property ∈ fitNames) {size : Text}
    (hsize : size ∈ [("inline-size" : Text), "block-size"]) :
    contains e.text size = contains e.value size := by
  have hfacts : ∀ size ∈ [("inline-size" : Text), "block-size"], size ≠ [] ∧ ':' ∉ size ∧ ' ' ∉ size ∧
      ';' ∉ size ∧ contains [] size = false ∧ ∀ n ∈ fitNames, contains n size = false := by decide
  obtain ⟨hne, hcolon, hspace, hsemicolon, hnil, hnames⟩ := hfacts size hsize
  have htext : e.text = e.property ++ ':' :: ([] ++ ' ' :: (e.value ++ ';' :: [])) := by
    simp [Declaration.text]
  rw [htext, contains_append_cons hne hcolon, contains_append_cons hne hspace,
    contains_append_cons hne hsemicolon, hnames _ he, hnil, Bool.false_or, Bool.false_or, Bool.or_false]

theorem coverSizes_eq_iff (h : ∀ e ∈ ds, e.property ∈ fitNames) :
    coverSizes ds = (if ds.any covers then fullSizes else []) ↔ (ds.any covers = true → Sizeless ds) := by
  have hmention : ∀ size ∈ [("inline-size" : Text), "block-size"],
      contains (join " " (ds.map Declaration.text)) size = ds.any fun e => contains e.value size := by
    have hfacts : ∀ size ∈ [("inline-size" : Text), "block-size"], size ≠ [] ∧ ' ' ∉ size := by decide
    intro size hsize
    rw [contains_join (hfacts size hsize).1 (hfacts size hsize).2, List.any_map, Bool.eq_iff_iff,
      List.any_eq_true, List.any_eq_true]
    refine exists_congr fun e => and_congr_right fun he => ?_
    rw [Function.comp_apply, contains_text (h e he) hsize]
  have hsizeless : Sizeless ds ↔ ds.any (fun e => contains e.value "inline-size") = false ∧
      ds.any (fun e => contains e.value "block-size") = false := by
    simp only [Sizeless, List.any_eq_false, Bool.not_eq_true, ← forall_and]
  unfold coverSizes
  dsimp only
  rw [hmention "inline-size" (by decide), hmention "block-size" (by decide), hsizeless]
  cases ds.any covers with
  | false => simp
  | true =>
    cases ds.any fun e => contains e.value "inline-size" <;>
      cases ds.any fun e => contains e.value "block-size" <;> simp [fullSizes]

end Sizes

section Move

theorem Moves.trim_ne_nil (h : Moves base ds u ns) (hne : ds ≠ []) : trim base ≠ [] := by
  intro htrim
  have hnodes := (Yields.of_blank (trim_eq_nil_iff.mp htrim)).ofText
  have hds := h.ofText.1
  rw [hnodes] at hds
  exact hne hds.symm

theorem eraseDups_ne_nil (hne : ds ≠ []) : ds.eraseDups ≠ [] := by
  obtain ⟨d, hd⟩ := List.exists_mem_of_ne_nil ds hne
  exact List.ne_nil_of_mem (List.mem_eraseDups.mpr hd)

def mediaLine (media : Text) : Text :=
  if media.isEmpty then [] else "\n" ++ trimStart media

theorem Moves.move_eq (h : Moves base ds u ns) (hne : ds ≠ [])
    (hclass : (lower (trim className)).contains "image" = true) (himg : find? imageBlock base = none)
    (hmedia : splitMedia (base ++ media) = (base, media)) :
    move className (base ++ media) = trim (front base ++
      nestedImage (ds.eraseDups ++ coverSizes ds.eraseDups) ++ mediaLine media) := by
  have htrim : (trim base).isEmpty = false := by simpa using h.trim_ne_nil hne
  have hmoved : ds.eraseDups.isEmpty = false := by simpa using eraseDups_ne_nil hne
  have hcond : (!(lower (trim className)).contains "image" || (trim base).isEmpty ||
      (find? imageBlock base).isSome || ds.eraseDups.isEmpty) = false := by
    rw [hclass, htrim, himg, hmoved]
    rfl
  rw [move, hmedia]
  dsimp only
  rw [moved_eq h, hcond, if_neg Bool.false_ne_true, front_append, mediaLine]
  split_ifs
  · rw [List.append_nil]
  · simp only [List.append_assoc]

theorem exists_nestedImage_eq (ds : List Declaration) :
    ∃ v, nestedImage ds = "img " ++ '\x7b' :: v := by
  have hhead : ("img \x7b\n  " : Text) = "img " ++ '\x7b' :: "\n  " := by decide
  refine ⟨"\n  " ++ join "\n  " (ds.map Declaration.text) ++ "\n\x7d", ?_⟩
  have htext := congrArg (fun t : Text => t ++ join "\n  " (ds.map Declaration.text) ++ "\n\x7d") hhead
  exact htext.trans (by simp)

theorem ofText_mediaLine (media : Text) : Node.ofText (mediaLine media) = Node.ofText media := by
  have hblank : ∀ {w : Text}, Blank w → ∀ t, Node.ofText (w ++ t) = Node.ofText t := by
    intro w hw t
    rw [(Yields.of_blank hw).toClosed.ofText_append, (Yields.of_blank hw).ofText, List.nil_append]
  unfold mediaLine
  split_ifs with hmedia
  · rw [List.isEmpty_iff.mp hmedia]
  · have hstart : Blank (media.takeWhile isBlank) := fun c hc => List.mem_takeWhile_imp hc
    have hsplit : media.takeWhile isBlank ++ trimStart media = media := List.takeWhile_append_dropWhile
    have hread := hblank hstart (trimStart media)
    rw [hsplit] at hread
    exact (hblank (by decide) _).trans hread.symm

theorem IsFront.ofText (h : IsFront t ns) (hne : ds ≠ []) (hds : ∀ e ∈ ds, Chunk e.bare) (media : Text) :
    Node.ofText (trim (t ++ nestedImage ds ++ mediaLine media)) =
      ns ++ .block "img" (declarationNodes ds) :: Node.ofText media := by
  have hnested := yields_nestedImage hne hds
  rw [ofText_trim, List.append_assoc, h.closed.ofText_append, h.nodes, hnested.toClosed.ofText_append,
    hnested.ofText, ofText_mediaLine]
  rfl

theorem find?_imageBlock (h : wordMayStart (lastOf none t) = true) (x : Text) :
    find? imageBlock (t ++ "img " ++ '\x7b' :: x) ≠ none := by
  have hfound : imageBlock (lastOf none t) ("img \x7b" ++ x) ≠ none := by
    have hword : dropWord? "img" ("img \x7b" ++ x) = some (" \x7b" ++ x) := rfl
    have hblank : trimStart (" \x7b" ++ x) = '\x7b' :: x :=
      (trimStart_append (by decide : Blank " ") _).trans (trimStart_cons_of_not_blank (by decide) _)
    have hopen : dropStart? ('\x7b' :: x) "\x7b" = some x := dropStart?_append "\x7b" x
    rw [imageBlock, h, hword]
    simp only [Option.bind_eq_bind, Option.bind_some, hblank, hopen]
    simp
  intro hnone
  have hsplit : t ++ "img " ++ '\x7b' :: x = t ++ ("img \x7b" ++ x) := by simp
  rw [hsplit] at hnone
  have hpasses := Recogniser.passes_iff_findFrom?.mpr hnone
  exact Recogniser.not_passes (v := []) (by simp) (by rwa [List.append_nil]) hpasses

theorem IsFront.exists_trim_eq (h : IsFront t ns) (ds : List Declaration) (u : Text) :
    ∃ y, trim (t ++ nestedImage ds ++ u) = t ++ "img " ++ '\x7b' :: y := by
  obtain ⟨v, hv⟩ := exists_nestedImage_eq ds
  have hsplit : t ++ nestedImage ds ++ u = t ++ "img " ++ '\x7b' :: (v ++ u) := by
    rw [hv]
    simp
  have hstart : trimStart (t ++ "img " ++ '\x7b' :: (v ++ u)) = t ++ "img " ++ '\x7b' :: (v ++ u) := by
    rcases t with _ | ⟨c, t⟩
    · exact trimStart_cons_of_not_blank (by decide) _
    · exact trimStart_cons_of_not_blank (h.visible c rfl) _
  exact ⟨trimEnd (v ++ u), by rw [hsplit, trim, hstart, trimEnd_append_cons (by decide)]⟩

/-- Where the nested block stands nothing moves. -/
theorem IsFront.move_eq (h : IsFront t ns) (ds : List Declaration) (u : Text) :
    move className (trim (t ++ nestedImage ds ++ u)) = trim (t ++ nestedImage ds ++ u) := by
  obtain ⟨y, htrim⟩ := h.exists_trim_eq ds u
  have hmedia : contains (t ++ "img ") "@media" = false := (h.media _).trans (by decide)
  have hbrace : '\x7b' ∉ ("@media" : Text) := by decide
  have hfind := Option.isSome_iff_ne_none.mpr (find?_imageBlock h.apart (splitMedia y).1)
  rw [htrim, move, splitMedia_append_cons hbrace hmedia y]
  dsimp only
  rw [if_pos (by rw [hfind]; simp)]

theorem any_eraseDups (p : Declaration → Bool) (ds : List Declaration) :
    ds.eraseDups.any p = ds.any p := by
  rw [Bool.eq_iff_iff, List.any_eq_true, List.any_eq_true]
  simp only [List.mem_eraseDups]

theorem sizeless_eraseDups : Sizeless ds.eraseDups ↔ Sizeless ds := by
  simp only [Sizeless, List.mem_eraseDups]

/-- No size is a property of the fit. -/
theorem lastValue?_append_coverSizes {property : Text} (h : property ∈ fitNames) (ds es : List Declaration) :
    lastValue? (ds ++ coverSizes es) property = lastValue? ds property := by
  have hsizes : ∀ e ∈ coverSizes es, ¬ (decide (e.property = property)) = true := by
    have hother : ∀ name ∈ fitNames, ∀ e ∈ fullSizes, e.property ≠ name := by decide
    intro e he
    simpa using hother property h e (coverSizes_subset es he)
  rw [lastValue?, List.filter_append, List.filter_eq_nil_iff.mpr hsizes, List.append_nil, lastValue?]

/-- Moving the fit of an image class into a nested block keeps what else stands in front of the media
blocks, and the media blocks. The value that a property of the fit is declared last counts exactly if none
is declared for the first time behind it, and a covering image gains its sizes exactly if no value
mentions one. Moving once more changes nothing. -/
theorem move_rootDeclarations (hclass : (lower (trim className)).contains "image" = true)
    (hbase : Rooted base) (hsqueezable : Snippet.Squeezable base) (himg : find? imageBlock base = none)
    (hnomedia : contains base "@media" = false)
    (hmedia : media = [] ∨ startsWith media "@media" = true) :
    let ds := (Node.ofText base).filterMap fitOf?
    let es := ds.eraseDups ++ coverSizes ds.eraseDups
    let css := base ++ media
    (ds = [] → move className css = css) ∧
    (ds ≠ [] → Node.ofText (move className css) = (Node.ofText base).filter (fun n => (fitOf? n).isNone) ++
      .block "img" (declarationNodes es) :: Node.ofText media) ∧
    (∀ property ∈ fitNames, lastValue? es property = lastValue? ds property ↔ CountsLast ds property) ∧
    (coverSizes ds.eraseDups = (if ds.any covers then fullSizes else []) ↔
      (ds.any covers = true → Sizeless ds)) ∧
    move className (move className css) = move className css := by
  obtain ⟨ds, u, ns, h⟩ := hbase.exists_moves
  obtain ⟨hds, hns⟩ := h.ofText
  have hsplit := splitMedia_append hnomedia hmedia
  have hfront := h.isFront hsqueezable hnomedia
  intro ds' es css
  obtain rfl : ds' = ds := hds
  have hstays : ds' = [] → move className css = css := by
    intro hnil
    have hmoved : moved base = [] := by rw [moved_eq h, hnil]; rfl
    rw [move, hsplit]
    dsimp only
    rw [hmoved, if_pos (by simp)]
  have hmoves := fun hne => h.move_eq hne hclass himg hsplit
  refine ⟨hstays, fun hne => ?_, fun property hproperty => ?_, ?_, ?_⟩
  · have hes : ∀ e ∈ es, Chunk e.bare := by
      intro e he
      rcases List.mem_append.mp he with he | he
      · exact (h.isFit e (List.mem_eraseDups.mp he)).chunk
      · exact chunk_coverSizes e he
    have hesne : es ≠ [] := List.append_ne_nil_of_left_ne_nil (eraseDups_ne_nil hne) _
    rw [hmoves hne, hfront.ofText hesne hes, hns]
  · rw [lastValue?_append_coverSizes hproperty]
    exact lastValue?_eraseDups_iff ds' property
  · have hfit : ∀ e ∈ ds'.eraseDups, e.property ∈ fitNames := fun e he =>
      (h.isFit e (List.mem_eraseDups.mp he)).property
    have hsizes := coverSizes_eq_iff hfit
    rwa [any_eraseDups, sizeless_eraseDups] at hsizes
  · by_cases hne : ds' = []
    · rw [hstays hne, hstays hne]
    · rw [hmoves hne, hfront.move_eq]

def heroImage : Text :=
  "/* fit */\nobject-fit: cover;\n--gap: 1px;;\nAspect-Ratio : 16 / 9 ;\nobject-fit: cover;\n" ++
    "&:hover \x7b\n  opacity: 0;\n\x7d\n"

theorem rooted_heroImage : Rooted heroImage := by
  have hcover : IsRoot "object-fit: cover" ⟨"object-fit", "cover"⟩ := by
    constructor <;> decide +kernel
  have hratio : IsRoot "Aspect-Ratio : 16 / 9" ⟨"aspect-ratio", "16 / 9"⟩ := by
    constructor <;> decide +kernel
  have hcomment : Leads "/* fit */\n" (("object-fit: cover" : Text) ++ []) := by
    rw [List.append_nil]
    constructor <;> decide +kernel
  have hgap : Leads "\n--gap: 1px;;\n" (("Aspect-Ratio : 16 / 9" : Text) ++ " ") := by
    constructor <;> decide +kernel
  have hfeed : Leads "\n" (("object-fit: cover" : Text) ++ []) := by
    rw [List.append_nil]
    constructor <;> decide +kernel
  have hrest : IsRest "\n&:hover \x7b\n  opacity: 0;\n\x7d\n" := by
    constructor <;> decide +kernel
  have hrooted := Rooted.root hcomment hcover .nil (.root hgap hratio (by decide : Blank " ")
    (.root hfeed hcover .nil (.rest hrest)))
  exact (congrArg Rooted (by decide +kernel)).mp hrooted

theorem move_rootDeclarations_heroImage :
    let media : Text := "@media print \x7b\n  color: black;\n\x7d"
    let css := heroImage ++ media
    Node.ofText (move "hero-image" css) =
      (Node.ofText heroImage).filter (fun n => (fitOf? n).isNone) ++
        .block "img" (declarationNodes [⟨"object-fit", "cover"⟩, ⟨"aspect-ratio", "16 / 9"⟩,
          ⟨"inline-size", "100%"⟩, ⟨"block-size", "100%"⟩]) :: Node.ofText media ∧
      move "hero-image" (move "hero-image" css) = move "hero-image" css := by
  intro media css
  have hclass : (lower (trim "hero-image")).contains "image" = true := by decide +kernel
  have hmedia : media = [] ∨ startsWith media "@media" = true := .inr (by decide +kernel)
  obtain ⟨-, hmoves, -, -, hagain⟩ := move_rootDeclarations hclass rooted_heroImage (by decide +kernel)
    (by decide +kernel) (by decide +kernel) hmedia
  have hds : (Node.ofText heroImage).filterMap fitOf? =
      [⟨"object-fit", "cover"⟩, ⟨"aspect-ratio", "16 / 9"⟩, ⟨"object-fit", "cover"⟩] := by
    decide +kernel
  rw [hds] at hmoves
  exact ⟨hmoves (List.cons_ne_nil _ _), hagain⟩

/-- A declaration of the fit in a nested block is taken out of it. -/
theorem move_nestedDeclaration :
    let css : Text := "object-fit: cover; &:hover \x7b\n  object-fit: contain;\n\x7d"
    Node.declaredUnder "&:hover" (Node.ofText css) = [⟨"object-fit", "contain"⟩] ∧
      Node.declaredUnder "&:hover" (Node.ofText (move "image" css)) = [] ∧
      Node.declaredUnder "img" (Node.ofText (move "image" css)) =
        [⟨"object-fit", "cover"⟩, ⟨"object-fit", "contain"⟩, ⟨"inline-size", "100%"⟩,
          ⟨"block-size", "100%"⟩] := by
  decide +kernel

end Move

end Restyle.ImageFit
