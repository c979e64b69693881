import Mathlib.Data.List.DropRight
import Mathlib.Logic.Function.Basic

/-!
# String literals of a JSON text

A scanner that walks over a JSON text byte by byte, decodes its string
literals and passes over everything between them. Inside a literal it follows
the rules of the format: a quote ends the literal, a backslash starts an
escape, control bytes are errors, and all other bytes stand for themselves.
No program is mentioned here.
-/

namespace Line64.JsonLiteral

/-- The byte that delimits a literal. -/
def quote : UInt8 := 0x22

/-- The byte that starts an escape. -/
def backslash : UInt8 := 0x5c

/-- Place of the scanner. -/
inductive Phase
  /-- Between literals. -/
  | outside
  /-- In a literal. -/
  | inside
  /-- Behind a backslash. -/
  | escape
  /-- Behind `\u` and the given number of digits with their value. -/
  | unicode (read code : ℕ)
  deriving DecidableEq, Repr

/-- Place of the scanner, the content of the present literal and the contents
of the ones in front of it. -/
structure Scan where
  /-- Place of the scanner. -/
  phase : Phase
  /-- Decoded bytes of the present literal. -/
  content : List UInt8
  /-- Decoded literals, first one first. -/
  literals : List (List UInt8)
  deriving DecidableEq, Repr

/-- Meaning of the letter of a two-character escape. -/
def escapeLetter (letter : UInt8) : Option UInt8 :=
  match letter.toNat with
  | 0x22 => some 0x22
  | 0x5c => some 0x5c
  | 0x2f => some 0x2f
  | 0x62 => some 0x08
  | 0x66 => some 0x0c
  | 0x6e => some 0x0a
  | 0x72 => some 0x0d
  | 0x74 => some 0x09
  | _ => none

/-- Value of a hexadecimal digit. -/
def hexValue (digit : UInt8) : Option ℕ :=
  let value := digit.toNat
  if 0x30≤value ∧ value≤0x39 then some (value-0x30)
  else if 0x41≤value ∧ value≤0x46 then some (value-0x41+10)
  else if 0x61≤value ∧ value≤0x66 then some (value-0x61+10)
  else none

/-- Bytes of a code point with four hexadecimal digits. Halves of surrogate
pairs are no code points. -/
def utf8 (code : ℕ) : Option (List UInt8) :=
  if code<0x80 then some [.ofNat code]
  else if code<0x800 then some [.ofNat (0xc0+code/0x40),.ofNat (0x80+code%0x40)]
  else if 0xd800≤code ∧ code<0xe000 then none
  else some [.ofNat (0xe0+code/0x1000),.ofNat (0x80+code/0x40%0x40),.ofNat (0x80+code%0x40)]

/-- The scanner passes one byte. -/
def Scan.step (s : Scan) (byte : UInt8) : Option Scan :=
  match s.phase with
  | .outside =>
    if byte=quote then some {s with phase := .inside, content := []} else some s
  | .inside =>
    if byte=quote then some ⟨.outside,[],s.literals++[s.content]⟩
    else if byte=backslash then some {s with phase := .escape}
    else if byte<0x20 then none
    else some {s with content := s.content++[byte]}
  | .escape =>
    if byte=0x75 then some {s with phase := .unicode 0 0}
    else (escapeLetter byte).map fun meaning =>
      {s with phase := .inside, content := s.content++[meaning]}
  | .unicode read code =>
    (hexValue byte).bind fun value =>
      if read<3 then some {s with phase := .unicode (read+1) (16*code+value)}
      else (utf8 (16*code+value)).map fun encoded =>
        {s with phase := .inside, content := s.content++encoded}

/-- The scanner passes a text. -/
def Scan.run (s : Scan) (text : List UInt8) : Option Scan := text.foldlM Scan.step s

/-- The scanner in front of a text. -/
def Scan.start : Scan := ⟨.outside,[],[]⟩

/-- All literals of a text, decoded; none if the text ends in a literal or
breaks a rule. -/
def literals (text : List UInt8) : Option (List (List UInt8)) :=
  match Scan.start.run text with
  | some ⟨.outside,_,found⟩ => some found
  | _ => none

/-- Decoded content of a literal, given without its quotes. -/
def decode (body : List UInt8) : Option (List UInt8) :=
  match Scan.run ⟨.inside,[],[]⟩ body with
  | some ⟨.inside,content,[]⟩ => some content
  | _ => none

/-- The scanner passes one text behind another. -/
theorem Scan.run_append (s : Scan) (front rest : List UInt8) :
    s.run (front++rest)=(s.run front).bind fun s => s.run rest :=
  List.foldlM_append ..

/-- The scanner passes a first byte. -/
theorem Scan.run_cons (s : Scan) (byte : UInt8) (rest : List UInt8) :
    s.run (byte::rest)=(s.step byte).bind fun s => s.run rest :=
  List.foldlM_cons ..

section Rules

variable (content : List UInt8) (found : List (List UInt8))

/-- A byte that stands for itself in a literal. -/
structure Plain (byte : UInt8) : Prop where
  /-- It does not end the literal. -/
  notQuote : byte≠quote
  /-- It does not start an escape. -/
  notBackslash : byte≠backslash
  /-- It is no control byte. -/
  visible : 0x20≤byte

/-- Plain bytes can be recognised. -/
instance (byte : UInt8) : Decidable (Plain byte) :=
  decidable_of_iff (byte≠quote ∧ byte≠backslash ∧ 0x20≤byte)
    ⟨fun h => ⟨h.1,h.2.1,h.2.2⟩,fun h => ⟨h.notQuote,h.notBackslash,h.visible⟩⟩

/-- Plain texts can be recognised. -/
theorem plain_of_all {text : List UInt8} (h : text.all (fun byte => Plain byte)=true) :
    ∀ byte ∈ text,Plain byte :=
  fun byte hmem => of_decide_eq_true (List.all_eq_true.mp h byte hmem)

/-- Plain bytes in a literal stand for themselves. -/
theorem run_plain {text : List UInt8} (h : ∀ byte ∈ text,Plain byte) :
    Scan.run ⟨.inside,content,found⟩ text=some ⟨.inside,content++text,found⟩ := by
  induction text generalizing content with
  | nil => rw [List.append_nil]; rfl
  | cons byte rest ih =>
    obtain ⟨hquote,hbackslash,hvisible⟩ := h byte List.mem_cons_self
    have hstep : Scan.step ⟨.inside,content,found⟩ byte=
        some ⟨.inside,content++[byte],found⟩ := by
      simp only [Scan.step,hquote,hbackslash,if_false,UInt8.not_lt.mpr hvisible]
    rw [Scan.run_cons,hstep,Option.bind_some,
      ih _ fun other hmem => h other (List.mem_cons_of_mem _ hmem),List.append_assoc]
    rfl

/-- A two-character escape. -/
theorem run_letter {letter meaning : UInt8} (h : escapeLetter letter=some meaning) :
    Scan.run ⟨.inside,content,found⟩ [backslash,letter]=
      some ⟨.inside,content++[meaning],found⟩ := by
  have hletter : letter≠0x75 := by
    rintro rfl
    cases h
  have hstart : Scan.step ⟨.inside,content,found⟩ backslash=some ⟨.escape,content,found⟩ := rfl
  rw [Scan.run_cons,hstart,Option.bind_some,Scan.run_cons]
  simp only [Scan.step,hletter,if_false,h,Option.map_some,Option.bind_some]
  rfl

/-- An escaped code point below 128. -/
theorem run_unicode {high low : UInt8} {h l : ℕ} (hhigh : hexValue high=some h)
    (hlow : hexValue low=some l) (hsmall : 16*h+l<0x80) :
    Scan.run ⟨.inside,content,found⟩ [backslash,0x75,0x30,0x30,high,low]=
      some ⟨.inside,content++[.ofNat (16*h+l)],found⟩ := by
  have hstart : Scan.run ⟨.inside,content,found⟩ [backslash,0x75,0x30,0x30]=
      some ⟨.unicode 2 0,content,found⟩ := rfl
  have hutf8 : utf8 (16*h+l)=some [.ofNat (16*h+l)] := if_pos hsmall
  rw [← List.take_append_drop 4 [backslash,0x75,0x30,0x30,high,low],Scan.run_append]
  simp only [List.take_succ_cons,List.take_zero,List.drop_succ_cons,List.drop_zero,hstart,
    Option.bind_some,Scan.run_cons,Scan.step,hhigh,hlow,Nat.mul_zero,Nat.zero_add,
    Nat.reduceAdd,Nat.reduceLT,if_true,Nat.lt_irrefl,if_false,hutf8,Option.map_some]
  rfl

/-- Text without quotes between literals. -/
theorem run_between {text : List UInt8} (h : quote ∉ text) :
    Scan.run ⟨.outside,content,found⟩ text=some ⟨.outside,content,found⟩ := by
  induction text with
  | nil => rfl
  | cons byte rest ih =>
    rw [List.mem_cons,not_or] at h
    have hstep : Scan.step ⟨.outside,content,found⟩ byte=some ⟨.outside,content,found⟩ :=
      if_neg (Ne.symm h.1)
    rw [Scan.run_cons,hstep,Option.bind_some,ih h.2]

end Rules

/-- The ways to write a byte in a literal: a two-character escape, a code
point below 128 in hexadecimal, and the byte itself. -/
inductive Encodes (byte : UInt8) : List UInt8 → Prop
  | letter {letter : UInt8} : escapeLetter letter=some byte → Encodes byte [backslash,letter]
  | unicode {high low : UInt8} {h l : ℕ} : hexValue high=some h → hexValue low=some l →
      16*h+l<0x80 → byte=.ofNat (16*h+l) → Encodes byte [backslash,0x75,0x30,0x30,high,low]
  | plain : Plain byte → Encodes byte [byte]

section Letters

/-- Letters of escapes are no control bytes, and only quote and backslash
stand for themselves. -/
theorem letter_cases {letter byte : UInt8} (h : escapeLetter letter=some byte) :
    Plain letter ∨ letter=quote ∧ byte=quote ∨ letter=backslash ∧ byte=backslash := by
  have hletter : letter=.ofNat letter.toNat := UInt8.ofNat_toNat.symm
  unfold escapeLetter at h
  split at h
  case h_9 => cases h
  all_goals
    rename_i hvalue
    rw [hvalue] at hletter
    subst hletter
    cases h
    decide

/-- Hexadecimal digits are plain. -/
theorem plain_of_hexValue {digit : UInt8} {value : ℕ} (h : hexValue digit=some value) :
    Plain digit := by
  have hrange : 0x30≤digit.toNat ∧ digit.toNat≤0x39 ∨ 0x41≤digit.toNat ∧ digit.toNat≤0x46 ∨
      0x61≤digit.toNat ∧ digit.toNat≤0x66 := by
    simp only [hexValue] at h
    split_ifs at h with hdecimal hupper hlower
    · exact .inl hdecimal
    · exact .inr (.inl hupper)
    · exact .inr (.inr hlower)
  refine ⟨?_,?_,UInt8.le_iff_toNat_le.mpr ?_⟩
  · rintro rfl
    revert hrange
    decide
  · rintro rfl
    revert hrange
    decide
  · have hspace : (0x20 : UInt8).toNat=0x20 := rfl
    omega

end Letters

section Encodings

variable {byte : UInt8} {text : List UInt8}

/-- Number of backslashes at the end of a text. -/
def trailing (text : List UInt8) : ℕ := (text.rtakeWhile (·=backslash)).length

/-- One more byte at the end of a text. -/
theorem trailing_concat (text : List UInt8) (byte : UInt8) :
    trailing (text++[byte])=if byte=backslash then trailing text+1 else 0 := by
  rw [trailing,List.rtakeWhile_concat]
  by_cases h : byte=backslash <;> simp [h,trailing]

/-- The scanner decodes a byte. -/
theorem Encodes.run (h : Encodes byte text) (content : List UInt8) (found : List (List UInt8)) :
    Scan.run ⟨.inside,content,found⟩ text=some ⟨.inside,content++[byte],found⟩ := by
  cases h with
  | letter hletter => exact run_letter content found hletter
  | unicode hhigh hlow hsmall hbyte =>
    rw [hbyte]
    exact run_unicode content found hhigh hlow hsmall
  | plain hplain => exact run_plain content found (by simpa using hplain)

/-- No control byte is written. -/
theorem Encodes.visible (h : Encodes byte text) : ∀ other ∈ text,0x20≤other := by
  intro other hmem
  cases h with
  | letter hletter =>
    rcases List.mem_pair.mp hmem with rfl | rfl
    · decide
    · rcases letter_cases hletter with hplain | ⟨rfl,-⟩ | ⟨rfl,-⟩
      · exact hplain.visible
      · decide
      · decide
  | unicode hhigh hlow hsmall hbyte =>
    simp only [List.mem_cons,List.not_mem_nil,or_false] at hmem
    rcases hmem with rfl | rfl | rfl | rfl | rfl | rfl
    · decide
    · decide
    · decide
    · decide
    · exact (plain_of_hexValue hhigh).visible
    · exact (plain_of_hexValue hlow).visible
  | plain hplain =>
    rw [List.mem_singleton.mp hmem]
    exact hplain.visible

/-- A quote is only written as the letter of its escape. -/
theorem Encodes.quote (h : Encodes byte text) {front rest : List UInt8}
    (htext : text=front++JsonLiteral.quote::rest) :
    byte=JsonLiteral.quote ∧ front=[backslash] ∧ rest=[] := by
  have hmem : JsonLiteral.quote ∈ text := by
    rw [htext]
    exact List.mem_append_right _ List.mem_cons_self
  cases h with
  | letter hletter =>
    rcases front with _ | ⟨first,_ | ⟨second,others⟩⟩
    · cases htext
    · simp only [List.cons_append,List.nil_append,List.cons.injEq] at htext
      obtain ⟨rfl,rfl,hrest⟩ := htext
      rcases letter_cases hletter with hplain | ⟨-,hbyte⟩ | ⟨hwrong,-⟩
      · exact absurd rfl hplain.notQuote
      · exact ⟨hbyte,rfl,hrest.symm⟩
      · cases hwrong
    · have hlength := congrArg List.length htext
      simp at hlength
  | unicode hhigh hlow hsmall hbyte =>
    simp only [List.mem_cons,List.not_mem_nil,or_false] at hmem
    rcases hmem with hwrong | hwrong | hwrong | hwrong | hdigit | hdigit
    · cases hwrong
    · cases hwrong
    · cases hwrong
    · cases hwrong
    · exact absurd hdigit.symm (plain_of_hexValue hhigh).notQuote
    · exact absurd hdigit.symm (plain_of_hexValue hlow).notQuote
  | plain hplain => exact absurd (List.mem_singleton.mp hmem).symm hplain.notQuote

/-- An encoded byte keeps an even number of backslashes at the end of a text. -/
theorem Encodes.trailing (h : Encodes byte text) {front : List UInt8}
    (hfront : JsonLiteral.trailing front%2=0) : JsonLiteral.trailing (front++text)%2=0 := by
  have hlast : ∀ (before : List UInt8) {last : UInt8},Plain last →
      JsonLiteral.trailing (before++[last])%2=0 := by
    intro before last hplain
    rw [trailing_concat,if_neg hplain.notBackslash]
  cases h with
  | @letter letter hletter =>
    rw [← List.singleton_append,← List.append_assoc]
    rcases letter_cases hletter with hplain | ⟨rfl,-⟩ | ⟨rfl,-⟩
    · exact hlast _ hplain
    · rw [trailing_concat,if_neg (by decide)]
    · rw [trailing_concat,if_pos rfl,trailing_concat,if_pos rfl]
      omega
  | @unicode high low _ _ hhigh hlow hsmall hbyte =>
    have hsplit : front++[backslash,0x75,0x30,0x30,high,low]=
        front++[backslash,0x75,0x30,0x30,high]++[low] := by
      rw [List.append_assoc]
      rfl
    rw [hsplit]
    exact hlast _ (plain_of_hexValue hlow)
  | plain hplain => exact hlast _ hplain

end Encodings

section Texts

variable {encode : UInt8 → List UInt8} (h : ∀ byte,Encodes byte (encode byte))

include h

/-- The scanner decodes an encoded text. -/
theorem run_flatMap (text content : List UInt8) (found : List (List UInt8)) :
    Scan.run ⟨.inside,content,found⟩ (text.flatMap encode)=
      some ⟨.inside,content++text,found⟩ := by
  induction text generalizing content with
  | nil => rw [List.append_nil]; rfl
  | cons byte rest ih =>
    rw [List.flatMap_cons,Scan.run_append,(h byte).run,Option.bind_some,ih,List.append_assoc]
    rfl

/-- Decoding returns the text. -/
theorem decode_flatMap (text : List UInt8) : decode (text.flatMap encode)=some text := by
  rw [decode,run_flatMap h]
  rfl

/-- Different texts are encoded differently. -/
theorem flatMap_injective : Function.Injective fun text : List UInt8 => text.flatMap encode := by
  intro left right hsame
  have hdecoded := congrArg decode hsame
  dsimp only at hdecoded
  rw [decode_flatMap h,decode_flatMap h] at hdecoded
  exact Option.some.inj hdecoded

/-- No control byte is written. -/
theorem visible_flatMap (text : List UInt8) : ∀ byte ∈ text.flatMap encode,0x20≤byte := by
  intro byte hmem
  obtain ⟨source,-,hbyte⟩ := List.mem_flatMap.mp hmem
  exact (h source).visible byte hbyte

/-- Every quote is the letter of the escape of a quote. -/
theorem quote_flatMap {text front rest : List UInt8}
    (htext : text.flatMap encode=front++quote::rest) :
    ∃ before after,text=before++quote::after ∧ front=before.flatMap encode++[backslash] := by
  induction text generalizing front with
  | nil => cases front <;> cases htext
  | cons byte others ih =>
    rw [List.flatMap_cons] at htext
    rcases List.append_eq_append_iff.mp htext with ⟨more,hfront,hothers⟩ | ⟨more,hbyte,hrest⟩
    · obtain ⟨before,after,rfl,rfl⟩ := ih hothers
      exact ⟨byte::before,after,rfl,by rw [hfront,List.flatMap_cons,List.append_assoc]⟩
    · cases more with
      | nil =>
        have hempty : others.flatMap encode=[]++quote::rest := hrest.symm
        obtain ⟨before,after,-,hnil⟩ := ih hempty
        exact absurd hnil (by simp)
      | cons first tail =>
        obtain ⟨rfl,-⟩ := List.cons.inj hrest
        obtain ⟨rfl,rfl,-⟩ := (h byte).quote hbyte
        exact ⟨[],others,rfl,rfl⟩

/-- An encoded text ends in an even number of backslashes. -/
theorem trailing_flatMap (text : List UInt8) : trailing (text.flatMap encode)%2=0 := by
  induction text using List.reverseRecOn with
  | nil => rfl
  | append_singleton rest byte ih =>
    rw [List.flatMap_append,List.flatMap_singleton]
    exact (h byte).trailing ih

end Texts

end Line64.JsonLiteral
