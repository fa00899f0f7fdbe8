namespace SystemProgramming.Lib.Ctype

/-!
# `ctype.h`

The classes of characters and the change of case, in the locale that a program begins with.
-/

def isspace (c : UInt8) : Bool := c == 32 || 9 ≤ c && c ≤ 13

def isdigit (c : UInt8) : Bool := 48 ≤ c && c ≤ 57

def isupper (c : UInt8) : Bool := 65 ≤ c && c ≤ 90

def islower (c : UInt8) : Bool := 97 ≤ c && c ≤ 122

def isalpha (c : UInt8) : Bool := isupper c || islower c

def isalnum (c : UInt8) : Bool := isalpha c || isdigit c

/-- What is printed, is no blank, and is no letter or digit. -/
def ispunct (c : UInt8) : Bool := 33 ≤ c && c ≤ 126 && !isalnum c

def toupper (c : UInt8) : UInt8 := if islower c then c - 32 else c

def tolower (c : UInt8) : UInt8 := if isupper c then c + 32 else c

/-- A statement about a character is checked character by character. -/
theorem forall_of_fin {P : UInt8 → Prop} (h : ∀ i : Fin 256, P (UInt8.ofFin i)) (c : UInt8) : P c :=
  h c.toFin

/-- What the change of case keeps, for one character. -/
def CaseTable (c : UInt8) : Prop :=
  (isspace (toupper c) = isspace c ∧ isdigit (toupper c) = isdigit c ∧
    isdigit (tolower c) = isdigit c ∧ isalpha (toupper c) = isalpha c ∧
    isalpha (tolower c) = isalpha c) ∧
  (tolower (toupper c) = tolower c ∧ tolower (tolower c) = tolower c ∧
    toupper (tolower c) = toupper c) ∧
  (isalpha c = true → isspace c = false)

instance (c : UInt8) : Decidable (CaseTable c) := inferInstanceAs (Decidable (_ ∧ _))

theorem caseTable : ∀ c, CaseTable c := forall_of_fin (by decide +kernel)

theorem isspace_toupper (c : UInt8) : isspace (toupper c) = isspace c := (caseTable c).1.1

theorem isdigit_toupper (c : UInt8) : isdigit (toupper c) = isdigit c := (caseTable c).1.2.1

theorem isdigit_tolower (c : UInt8) : isdigit (tolower c) = isdigit c := (caseTable c).1.2.2.1

theorem isalpha_toupper (c : UInt8) : isalpha (toupper c) = isalpha c := (caseTable c).1.2.2.2.1

theorem isalpha_tolower (c : UInt8) : isalpha (tolower c) = isalpha c := (caseTable c).1.2.2.2.2

theorem tolower_toupper (c : UInt8) : tolower (toupper c) = tolower c := (caseTable c).2.1.1

theorem tolower_tolower (c : UInt8) : tolower (tolower c) = tolower c := (caseTable c).2.1.2.1

theorem toupper_tolower (c : UInt8) : toupper (tolower c) = toupper c := (caseTable c).2.1.2.2

theorem not_isspace_of_isalpha (c : UInt8) (h : isalpha c = true) : isspace c = false :=
  (caseTable c).2.2 h

end SystemProgramming.Lib.Ctype
