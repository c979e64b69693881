import Mathlib.Data.List.TakeWhile
import Line64.BenchmarkResult

/-!
# Consumer counts on the command line

`parse_consumers` splits its argument at commas, reads every item with
`std::from_chars` and sorts the counts. The loop ends where no comma is left,
and also where nothing stands behind the last comma: a list with a comma at
its end is accepted, although empty items are rejected everywhere else.
-/

namespace Line64.BenchmarkOptions

open BenchmarkResult

/-- Value of decimal digits. -/
def decimal (text : List Char) : ℕ :=
  text.foldl (fun value digit => 10*value+(digit.toNat - '0'.toNat)) 0

/-- The character between two items. -/
def separator : Char := ','

/-- Errors of `std::from_chars`. -/
inductive Errc
  | invalidArgument
  | resultOutOfRange
  deriving DecidableEq, Repr

/-- `std::from_chars` for a 64-bit value: the value of the longest run of
digits and the position behind it. -/
def fromChars (text : List Char) : Except Errc (ℕ × ℕ) :=
  let digits := text.takeWhile Char.isDigit
  if digits=[] then .error .invalidArgument
  else if decimal digits<2^64 then .ok (decimal digits,digits.length)
  else .error .resultOutOfRange

/-- The function `parse_unsigned`. -/
def parseUnsigned (option : String) (text : List Char) : Except String ℕ :=
  match fromChars text with
  | .error _ => .error (option++" requires an unsigned integer")
  | .ok (value,position) =>
    if position≠text.length then .error (option++" requires an unsigned integer")
    else .ok value

/-- The first comma at or behind a position. -/
def findComma (text : List Char) (start : ℕ) : Option ℕ :=
  ((text.drop start).findIdx? (·=separator)).map (start+·)

/-- A comma is found at or behind the position, with no comma in between. -/
theorem findComma_some {text : List Char} {start comma : ℕ}
    (h : findComma text start=some comma) :
    start ≤ comma ∧ comma<text.length ∧
      text.drop start=(text.drop start).take (comma-start)++separator::text.drop (comma+1) ∧
      separator ∉ (text.drop start).take (comma-start) := by
  obtain ⟨offset,hoffset,rfl⟩ := Option.map_eq_some_iff.mp h
  obtain ⟨hlength,hat,hbefore⟩ := List.findIdx?_eq_some_iff_getElem.mp hoffset
  have hcharacter : (text.drop start)[offset]=separator := of_decide_eq_true hat
  have hrest : (text.drop start).drop offset=separator::text.drop (start+offset+1) := by
    rw [List.drop_eq_getElem_cons hlength,hcharacter,List.drop_drop,Nat.add_assoc]
  rw [List.length_drop] at hlength
  rw [Nat.add_sub_cancel_left]
  refine ⟨Nat.le_add_right _ _,by omega,?_,?_⟩
  · rw [← hrest,List.take_append_drop]
  · intro hmem
    obtain ⟨i,hi,hcomma⟩ := List.mem_take_iff_getElem.mp hmem
    exact hbefore i (by omega) (decide_eq_true hcomma)

/-- No comma is found. -/
theorem findComma_none {text : List Char} {start : ℕ} (h : findComma text start=none) :
    separator ∉ text.drop start := by
  have hnone := List.findIdx?_eq_none_iff.mp (Option.map_eq_none_iff.mp h)
  intro hmem
  exact absurd (hnone separator hmem) (by decide)

/-- Loop of `parse_consumers`: the items at and behind a position, behind the
values read so far. -/
def parseItems (text : List Char) (start : ℕ) (values : List ℕ) : Except String (List ℕ) :=
  if start<text.length then do
    let stop := (findComma text start).getD text.length
    let parsed ← parseUnsigned "--consumers" ((text.drop start).take (stop-start))
    if parsed=0 ∨ 64<parsed then throw "consumer counts must be between 1 and 64"
    else
      match _hcomma : findComma text start with
      | none => return values++[parsed]
      | some comma => parseItems text (comma+1) (values++[parsed])
  else return values
termination_by text.length-start
decreasing_by
  have hbounds := findComma_some _hcomma
  omega

/-- The constant `default_consumer_matrix`. -/
def defaultConsumerMatrix : List ℕ := [1,3,10]

/-- The function `parse_consumers`. -/
def parseConsumers (text : List Char) : Except String (List ℕ) :=
  if text="default".toList ∨ text="legacy".toList then .ok defaultConsumerMatrix
  else if text="single".toList then .ok [1]
  else do
    let values ← parseItems text 0 []
    if values=[] then throw "--consumers requires a list or preset"
    else return (sort values).destutter (·≠·)

/-- Texts with a meaning of their own. -/
def presets : List (List Char) := ["default".toList,"legacy".toList,"single".toList]

/-- An item: digits with a value between 1 and 64. -/
structure IsItem (item : List Char) : Prop where
  /-- Items are not empty. -/
  nonempty : item≠[]
  /-- Items consist of digits. -/
  digits : ∀ character ∈ item,character.isDigit=true
  /-- A trial needs a consumer. -/
  pos : 1≤decimal item
  /-- There is room for 64 consumers. -/
  max : decimal item≤64

/-- One or more items separated by single commas. -/
inductive ItemList : List Char → List (List Char) → Prop
  | one {item : List Char} : IsItem item → ItemList item [item]
  | more {item rest : List Char} {items : List (List Char)} : IsItem item → ItemList rest items →
      ItemList (item++separator::rest) (item::items)

/-- The grammar of consumer counts. -/
def Grammar (text : List Char) : Prop := ∃ items,ItemList text items

/-- A list of consumer counts with a comma at its end. -/
def TrailingComma (text : List Char) : Prop := ∃ list,Grammar list ∧ text=list++[separator]

section Items

/-- What `parse_unsigned` accepts. -/
theorem parseUnsigned_ok_iff {option : String} {text : List Char} {value : ℕ} :
    parseUnsigned option text=.ok value ↔
      text≠[] ∧ (∀ character ∈ text,character.isDigit=true) ∧ decimal text<2^64 ∧
        value=decimal text := by
  have hparse : parseUnsigned option text=
      if text.takeWhile Char.isDigit≠[] ∧ decimal (text.takeWhile Char.isDigit)<2^64 ∧
        (text.takeWhile Char.isDigit).length=text.length
      then .ok (decimal (text.takeWhile Char.isDigit))
      else .error (option++" requires an unsigned integer") := by
    unfold parseUnsigned fromChars
    dsimp only
    by_cases hempty : text.takeWhile Char.isDigit=[]
    · rw [if_pos hempty,if_neg (fun h => h.1 hempty)]
    rw [if_neg hempty]
    by_cases hfits : decimal (text.takeWhile Char.isDigit)<2^64
    · rw [if_pos hfits]
      by_cases hend : (text.takeWhile Char.isDigit).length=text.length
      · rw [if_pos ⟨hempty,hfits,hend⟩]
        exact if_neg (not_not.mpr hend)
      · rw [if_neg (fun h => hend h.2.2)]
        exact if_pos hend
    · rw [if_neg hfits,if_neg (fun h => hfits h.2.1)]
  rw [hparse]
  constructor
  · intro h
    split at h
    · rename_i hread
      obtain ⟨hnonempty,hfits,hend⟩ := hread
      have hall : text.takeWhile Char.isDigit=text :=
        (List.takeWhile_prefix _).eq_of_length hend
      rw [hall] at hnonempty hfits h
      exact ⟨hnonempty,List.takeWhile_eq_self_iff.mp hall,hfits,(Except.ok.inj h).symm⟩
    · cases h
  · rintro ⟨hnonempty,hdigits,hfits,rfl⟩
    have hall : text.takeWhile Char.isDigit=text := List.takeWhile_eq_self_iff.mpr hdigits
    rw [hall,if_pos ⟨hnonempty,hfits,rfl⟩]

/-- The loop goes on behind an item exactly if it is one of the grammar. -/
theorem parse_item_ok_iff {item : List Char} {message : String} {next : ℕ → Except String (List ℕ)}
    {result : List ℕ} :
    (do let parsed ← parseUnsigned "--consumers" item
        if parsed=0 ∨ 64<parsed then throw message else next parsed)=.ok result ↔
      IsItem item ∧ next (decimal item)=.ok result := by
  cases hparse : parseUnsigned "--consumers" item with
  | error text =>
    refine ⟨nofun,?_⟩
    rintro ⟨⟨hnonempty,hdigits,hpos,hmax⟩,-⟩
    have hok : parseUnsigned "--consumers" item=.ok (decimal item) :=
      parseUnsigned_ok_iff.mpr ⟨hnonempty,hdigits,by omega,rfl⟩
    rw [hparse] at hok
    cases hok
  | ok parsed =>
    obtain ⟨hnonempty,hdigits,hfits,rfl⟩ := parseUnsigned_ok_iff.mp hparse
    change (if decimal item=0 ∨ 64<decimal item then Except.error message
      else next (decimal item))=.ok result ↔ _
    split
    · rename_i hrange
      refine ⟨nofun,?_⟩
      rintro ⟨⟨-,-,hpos,hmax⟩,-⟩
      omega
    · rename_i hrange
      exact ⟨fun hnext => ⟨⟨hnonempty,hdigits,by omega,by omega⟩,hnext⟩,fun h => h.2⟩

/-- Items hold no comma. -/
theorem IsItem.no_comma {item : List Char} (h : IsItem item) : separator ∉ item := by
  intro hmem
  exact absurd (h.digits separator hmem) (by decide)

end Items

/-- What the loop reads: nothing, a last item, or an item, its comma and what
the loop reads behind it. -/
inductive Reads : List Char → List (List Char) → Prop
  | done : Reads [] []
  | last {item : List Char} : IsItem item → Reads item [item]
  | more {item rest : List Char} {items : List (List Char)} : IsItem item → Reads rest items →
      Reads (item++separator::rest) (item::items)

section Loop

variable {text item rest : List Char} {items : List (List Char)}

/-- The first comma of a text is in one place. -/
theorem split_at_comma {front back behind : List Char} (hfront : separator ∉ front) (hback : separator ∉ back)
    (h : front++separator::rest=back++separator::behind) : front=back ∧ rest=behind := by
  induction front generalizing back with
  | nil =>
    cases back with
    | nil => exact ⟨rfl,(List.cons.inj h).2⟩
    | cons first tail => exact absurd ((List.cons.inj h).1 ▸ List.mem_cons_self) hback
  | cons first tail ih =>
    cases back with
    | nil => exact absurd ((List.cons.inj h).1 ▸ List.mem_cons_self) hfront
    | cons other others =>
      obtain ⟨rfl,htail⟩ := List.cons.inj h
      obtain ⟨rfl,hrest⟩ := ih (fun hmem => hfront (List.mem_cons_of_mem _ hmem))
        (fun hmem => hback (List.mem_cons_of_mem _ hmem)) htail
      exact ⟨rfl,hrest⟩

/-- Nothing is read from nothing. -/
theorem Reads.of_nil (h : Reads [] items) : items=[] := by
  generalize htext : ([] : List Char)=text at h
  cases h with
  | done => rfl
  | last hitem => exact absurd htext.symm hitem.nonempty
  | more => exact absurd htext (by simp)

/-- Without a comma, one item is read. -/
theorem Reads.of_no_comma (h : Reads text items) (hnonempty : text≠[]) (hcomma : separator ∉ text) :
    IsItem text ∧ items=[text] := by
  cases h with
  | done => exact absurd rfl hnonempty
  | last hitem => exact ⟨hitem,rfl⟩
  | more => exact absurd (List.mem_append_right _ List.mem_cons_self) hcomma

/-- With a comma, the item in front of it is read first. -/
theorem Reads.of_comma (h : Reads (item++separator::rest) items) (hcomma : separator ∉ item) :
    ∃ others,IsItem item ∧ Reads rest others ∧ items=item::others := by
  generalize htext : item++separator::rest=text at h
  cases h with
  | done => exact absurd htext (by simp)
  | last hitem =>
    refine absurd ?_ hitem.no_comma
    rw [← htext]
    exact List.mem_append_right _ List.mem_cons_self
  | @more first behind others hitem hothers =>
    obtain ⟨rfl,rfl⟩ := split_at_comma hcomma hitem.no_comma htext
    exact ⟨others,hitem,hothers,rfl⟩

/-- The loop accepts exactly what it reads. -/
theorem parseItems_ok_iff (text : List Char) (start : ℕ) (values result : List ℕ) :
    parseItems text start values=.ok result ↔
      ∃ items,Reads (text.drop start) items ∧ result=values++items.map decimal := by
  induction hleft : text.length-start using Nat.strong_induction_on generalizing start values with
  | _ left ih =>
    rw [parseItems]
    by_cases hstart : start<text.length
    · rw [if_pos hstart]
      have hnonempty : text.drop start≠[] := by simpa using hstart
      refine parse_item_ok_iff.trans ?_
      split
      · rename_i hcomma
        have hitem : (text.drop start).take (((findComma text start).getD text.length)-start)=
            text.drop start := by
          rw [hcomma,Option.getD_none,List.take_of_length_le (by rw [List.length_drop])]
        rw [hitem]
        constructor
        · rintro ⟨hread,hresult⟩
          exact ⟨[text.drop start],.last hread,(Except.ok.inj hresult).symm⟩
        · rintro ⟨items,hreads,hresult⟩
          obtain ⟨hread,rfl⟩ := hreads.of_no_comma hnonempty (findComma_none hcomma)
          exact ⟨hread,congrArg _ hresult.symm⟩
      · rename_i comma hcomma
        obtain ⟨hle,hlt,hsplit,hitem⟩ := findComma_some hcomma
        rw [hcomma,Option.getD_some,ih _ (by omega) _ _ rfl]
        constructor
        · rintro ⟨hread,items,hreads,hresult⟩
          rw [hsplit]
          refine ⟨_,.more hread hreads,?_⟩
          rw [hresult,List.append_assoc]
          rfl
        · rintro ⟨items,hreads,hresult⟩
          rw [hsplit] at hreads
          obtain ⟨others,hread,hothers,rfl⟩ := hreads.of_comma hitem
          refine ⟨hread,others,hothers,?_⟩
          rw [hresult,List.append_assoc]
          rfl
    · -- The loop also ends where nothing stands behind a comma.
      have hempty : text.drop start=[] := List.drop_eq_nil_of_le (Nat.le_of_not_lt hstart)
      rw [if_neg hstart,hempty]
      constructor
      · intro hresult
        exact ⟨[],.done,by rw [List.map_nil,List.append_nil]; exact (Except.ok.inj hresult).symm⟩
      · rintro ⟨items,hreads,hresult⟩
        rw [hresult,hreads.of_nil,List.map_nil,List.append_nil]
        rfl

end Loop

section Lists

variable {text : List Char} {items : List (List Char)}

/-- What is read is a list of the grammar, with or without a comma at its end. -/
theorem Reads.cases_list (h : Reads text items) :
    text=[] ∧ items=[] ∨ ItemList text items ∨ ∃ list,ItemList list items ∧ text=list++[separator] := by
  induction h with
  | done => exact .inl ⟨rfl,rfl⟩
  | last hitem => exact .inr (.inl (.one hitem))
  | more hitem _ ih =>
    rcases ih with ⟨rfl,rfl⟩ | hlist | ⟨list,hlist,rfl⟩
    · exact .inr (.inr ⟨_,.one hitem,rfl⟩)
    · exact .inr (.inl (.more hitem hlist))
    · exact .inr (.inr ⟨_,.more hitem hlist,by rw [List.append_assoc]; rfl⟩)

/-- A list of the grammar is read. -/
theorem ItemList.reads (h : ItemList text items) : Reads text items := by
  induction h with
  | one hitem => exact .last hitem
  | more hitem _ ih => exact .more hitem ih

/-- A list of the grammar is read with a comma at its end. -/
theorem ItemList.reads_comma (h : ItemList text items) : Reads (text++[separator]) items := by
  induction h with
  | one hitem => exact .more hitem .done
  | more hitem _ ih =>
    rw [List.append_assoc]
    exact .more hitem ih

/-- A list of the grammar has an item and ends in a digit. -/
theorem ItemList.ends_in_digit (h : ItemList text items) :
    items≠[] ∧ ∃ digit,text.getLast?=some digit ∧ digit.isDigit=true := by
  refine ⟨by cases h <;> exact List.cons_ne_nil _ _,?_⟩
  induction h with
  | @one item hitem =>
    have hlast := List.getLast?_eq_some_getLast hitem.nonempty
    exact ⟨_,hlast,hitem.digits _ (List.getLast_mem hitem.nonempty)⟩
  | @more item rest items hitem hrest ih =>
    obtain ⟨digit,hlast,hdigit⟩ := ih
    refine ⟨digit,?_,hdigit⟩
    rw [List.getLast?_append,List.getLast?_cons,hlast]
    rfl

/-- A list with a comma at its end is not one of the grammar. -/
theorem TrailingComma.not_grammar (h : TrailingComma text) : ¬Grammar text := by
  rintro ⟨items,hitems⟩
  obtain ⟨list,-,rfl⟩ := h
  obtain ⟨-,digit,hlast,hdigit⟩ := hitems.ends_in_digit
  rw [List.getLast?_concat,Option.some.injEq] at hlast
  rw [← hlast] at hdigit
  exact absurd hdigit (by decide)

end Lists

section Counts

/-- Sorted counts without repetitions increase. -/
theorem sorted_unique (values : List ℕ) :
    ((sort values).destutter (·≠·)).Pairwise (·<·) ∧
      ∀ value,value ∈ (sort values).destutter (·≠·) ↔ value ∈ values := by
  have hsorted : (sort values).Pairwise (·≤·) := List.pairwise_insertionSort _ values
  have hperm : (sort values).Perm values := List.perm_insertionSort _ values
  rw [destutter_sort]
  refine ⟨?_,fun value => by rw [List.mem_dedup,hperm.mem_iff]⟩
  have hordered := hsorted.sublist (List.dedup_sublist _)
  exact (hordered.and (List.nodup_dedup _)).imp fun h => Nat.lt_of_le_of_ne h.1 h.2

/-- What is accepted besides the presets. -/
theorem parseConsumers_ok_iff {text : List Char} (hpreset : text ∉ presets) {result : List ℕ} :
    parseConsumers text=.ok result ↔ ∃ items,Reads text items ∧ items≠[] ∧
      result=(sort (items.map decimal)).destutter (·≠·) := by
  simp only [presets,List.mem_cons,List.not_mem_nil,or_false,not_or] at hpreset
  obtain ⟨hdefault,hlegacy,hsingle⟩ := hpreset
  have hloop := parseItems_ok_iff text 0 []
  simp only [List.drop_zero,List.nil_append] at hloop
  unfold parseConsumers
  rw [if_neg (not_or.mpr ⟨hdefault,hlegacy⟩),if_neg hsingle]
  cases hitems : parseItems text 0 [] with
  | error message =>
    refine ⟨nofun,?_⟩
    rintro ⟨items,hreads,-⟩
    have hok := (hloop _).mpr ⟨items,hreads,rfl⟩
    rw [hitems] at hok
    cases hok
  | ok values =>
    change (if values=[] then Except.error "--consumers requires a list or preset"
      else Except.ok ((sort values).destutter (·≠·)))=.ok result ↔ _
    constructor
    · intro hresult
      obtain ⟨items,hreads,rfl⟩ := (hloop _).mp hitems
      split at hresult
      · cases hresult
      · rename_i hnonempty
        exact ⟨items,hreads,fun hnone => hnonempty (by rw [hnone,List.map_nil]),
          (Except.ok.inj hresult).symm⟩
    · rintro ⟨items,hreads,hnonempty,rfl⟩
      have hok := (hloop _).mpr ⟨items,hreads,rfl⟩
      rw [hitems] at hok
      rw [Except.ok.inj hok,if_neg (mt List.map_eq_nil_iff.mp hnonempty)]

end Counts

/-- The texts for which the code follows its grammar are those that are not a
list with a comma at its end. -/
theorem parse_consumers_exact_iff {text : List Char} (hpreset : text ∉ presets) :
    (((∃ values,parseConsumers text=.ok values) ↔ Grammar text) ∧
      ∀ items values,ItemList text items → parseConsumers text=.ok values →
        values.Pairwise (·<·) ∧ ∀ value,value ∈ values ↔ ∃ item ∈ items,decimal item=value) ↔
      ¬TrailingComma text := by
  have hok := @parseConsumers_ok_iff text hpreset
  constructor
  · rintro ⟨hgrammar,-⟩ htrailing
    refine htrailing.not_grammar (hgrammar.mp ?_)
    obtain ⟨list,⟨items,hitems⟩,rfl⟩ := htrailing
    exact ⟨_,hok.mpr ⟨items,hitems.reads_comma,hitems.ends_in_digit.1,rfl⟩⟩
  · intro hno
    refine ⟨⟨?_,?_⟩,?_⟩
    · rintro ⟨values,hvalues⟩
      obtain ⟨items,hreads,hnonempty,-⟩ := hok.mp hvalues
      rcases hreads.cases_list with ⟨-,hnone⟩ | hitems | ⟨list,hitems,hcomma⟩
      · exact absurd hnone hnonempty
      · exact ⟨items,hitems⟩
      · exact absurd ⟨list,⟨items,hitems⟩,hcomma⟩ hno
    · rintro ⟨items,hitems⟩
      exact ⟨_,hok.mpr ⟨items,hitems.reads,hitems.ends_in_digit.1,rfl⟩⟩
    · intro items values hitems hvalues
      have hread := hok.mpr ⟨items,hitems.reads,hitems.ends_in_digit.1,rfl⟩
      rw [hvalues] at hread
      rw [Except.ok.inj hread]
      obtain ⟨hincreasing,hmem⟩ := sorted_unique (items.map decimal)
      exact ⟨hincreasing,fun value => by rw [hmem,List.mem_map]⟩

/-- A comma at the end is accepted. -/
theorem parse_consumers_trailing_comma :
    "1,".toList ∉ presets ∧ parseConsumers "1,".toList=.ok [1] ∧ ¬Grammar "1,".toList := by
  have hitem : IsItem ['1'] :=
    ⟨by decide,List.forall_mem_singleton.mpr rfl,by decide,by decide⟩
  refine ⟨by decide,?_,?_⟩
  · exact (parseConsumers_ok_iff (by decide)).mpr ⟨[['1']],.more hitem .done,by decide,rfl⟩
  · exact TrailingComma.not_grammar ⟨['1'],⟨[['1']],.one hitem⟩,rfl⟩

/-- A list without a comma at its end. -/
theorem parse_consumers_exact_pair :
    "3,1".toList ∉ presets ∧
      ((∃ values,parseConsumers "3,1".toList=.ok values) ↔ Grammar "3,1".toList) := by
  have hend : ¬TrailingComma "3,1".toList := by
    rintro ⟨list,-,htext⟩
    have hlast := congrArg List.getLast? htext
    rw [List.getLast?_concat] at hlast
    exact absurd hlast (by decide)
  exact ⟨by decide,((parse_consumers_exact_iff (by decide)).mpr hend).1⟩

end Line64.BenchmarkOptions
