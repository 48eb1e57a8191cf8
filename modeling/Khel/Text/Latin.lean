import Khel.Error

/-!
# Cyrillic names in Latin letters

Assemblers and linkers want names in ASCII. Each letter of the Mongolian Cyrillic alphabet has a Latin spelling, and
capitals are spelled as their small letters. ASCII letters, digits, the point, the underscore and the space stay. No
other character can stand in a name.
-/

namespace Khel.Text

/-- The Latin spelling of a small Cyrillic letter. -/
def latinSmall? : Char → Option String
  | 'а' => some "a"
  | 'б' => some "b"
  | 'в' => some "v"
  | 'г' => some "g"
  | 'д' => some "d"
  | 'е' => some "ye"
  | 'ё' => some "yo"
  | 'ж' => some "j"
  | 'з' => some "z"
  | 'и' => some "i"
  | 'й' => some "hi"
  | 'к' => some "k"
  | 'л' => some "l"
  | 'м' => some "m"
  | 'н' => some "n"
  | 'о' => some "o"
  | 'ө' => some "q"
  | 'п' => some "p"
  | 'р' => some "r"
  | 'с' => some "s"
  | 'т' => some "t"
  | 'у' => some "u"
  | 'ү' => some "w"
  | 'ф' => some "f"
  | 'х' => some "h"
  | 'ц' => some "ts"
  | 'ч' => some "ch"
  | 'ш' => some "sh"
  | 'щ' => some "shc"
  | 'ъ' => some "qi"
  | 'ы' => some "yi"
  | 'ь' => some "zi"
  | 'э' => some "e"
  | 'ю' => some "yu"
  | 'я' => some "ya"
  | _ => none

/-- The small letter of a capital of the alphabet; any other character stays. -/
def smallLetter (c : Char) : Char :=
  if 'А' ≤ c ∧ c ≤ 'Я' then Char.ofNat (c.toNat + 32)
  else if c = 'Ё' then 'ё'
  else if c = 'Ө' then 'ө'
  else if c = 'Ү' then 'ү'
  else c

/-- Does the character stay as it is? -/
def isPlain (c : Char) : Bool := c.isAlphanum || c == '.' || c == '_' || c == ' '

/-- The Latin spelling of a character of a name. -/
def latinChar? (c : Char) : Option (List Char) :=
  if isPlain c then some [c] else (latinSmall? (smallLetter c)).map String.toList

/-- The Latin spelling of a name; the first character without one is reported as it was written. -/
def latinChars : List Char → Except Fault (List Char)
  | [] => return []
  | c :: cs =>
    match latinChar? c with
    | some spelled => return spelled ++ (← latinChars cs)
    | none => throw (.noLatinFor c)

/-- The Latin spelling of a name. -/
def latin (name : String) : Except Fault String := return String.ofList (← latinChars name.toList)

end Khel.Text
