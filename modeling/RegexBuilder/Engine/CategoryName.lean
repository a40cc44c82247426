/-
# Names of character categories

The names that may stand in `\p{…}`: the general categories of Unicode 17 with their long names, the
scripts, and the binary properties. One dialect takes a name only as it is spelled here
(`isExactCategory`); the other ignores case, blanks, `_` and `-`, knows no properties, and has a few
names more (`isLooseCategory`).
-/

import RegexBuilder.Text

namespace RegexBuilder

/-- The short names of the general categories and of their groups. -/
def generalCategories : List String := [
  "C", "Cc", "Cf", "Cn", "Co", "Cs", "L", "LC", "Ll", "Lm", "Lo", "Lt", "Lu", "M", "Mc", "Me", "Mn",
  "N", "Nd", "Nl", "No", "P", "Pc", "Pd", "Pe", "Pf", "Pi", "Po", "Ps", "S", "Sc", "Sk", "Sm", "So",
  "Z", "Zl", "Zp", "Zs"]

/-- The long names of the general categories. -/
def longCategories : List String := [
  "Cased_Letter", "Close_Punctuation", "Combining_Mark", "Connector_Punctuation", "Control",
  "Currency_Symbol", "Dash_Punctuation", "Decimal_Number", "Enclosing_Mark", "Final_Punctuation",
  "Format", "Initial_Punctuation", "Letter", "Letter_Number", "Line_Separator", "Lowercase_Letter",
  "Mark", "Math_Symbol", "Modifier_Letter", "Modifier_Symbol", "Nonspacing_Mark", "Number",
  "Open_Punctuation", "Other", "Other_Letter", "Other_Number", "Other_Punctuation", "Other_Symbol",
  "Paragraph_Separator", "Private_Use", "Punctuation", "Separator", "Space_Separator",
  "Spacing_Mark", "Surrogate", "Symbol", "Titlecase_Letter", "Unassigned", "Uppercase_Letter",
  "cntrl", "digit", "punct"]

/-- The names of the scripts. -/
def scripts : List String := [
  "Adlam", "Ahom", "Anatolian_Hieroglyphs", "Arabic", "Armenian", "Avestan", "Balinese", "Bamum",
  "Bassa_Vah", "Batak", "Bengali", "Beria_Erfe", "Bhaiksuki", "Bopomofo", "Brahmi", "Braille",
  "Buginese", "Buhid", "Canadian_Aboriginal", "Carian", "Caucasian_Albanian", "Chakma", "Cham",
  "Cherokee", "Chorasmian", "Common", "Coptic", "Cuneiform", "Cypriot", "Cypro_Minoan", "Cyrillic",
  "Deseret", "Devanagari", "Dives_Akuru", "Dogra", "Duployan", "Egyptian_Hieroglyphs", "Elbasan",
  "Elymaic", "Ethiopic", "Garay", "Georgian", "Glagolitic", "Gothic", "Grantha", "Greek",
  "Gujarati", "Gunjala_Gondi", "Gurmukhi", "Gurung_Khema", "Han", "Hangul", "Hanifi_Rohingya",
  "Hanunoo", "Hatran", "Hebrew", "Hiragana", "Imperial_Aramaic", "Inherited",
  "Inscriptional_Pahlavi", "Inscriptional_Parthian", "Javanese", "Kaithi", "Kannada", "Katakana",
  "Kawi", "Kayah_Li", "Kharoshthi", "Khitan_Small_Script", "Khmer", "Khojki", "Khudawadi",
  "Kirat_Rai", "Lao", "Latin", "Lepcha", "Limbu", "Linear_A", "Linear_B", "Lisu", "Lycian",
  "Lydian", "Mahajani", "Makasar", "Malayalam", "Mandaic", "Manichaean", "Marchen",
  "Masaram_Gondi", "Medefaidrin", "Meetei_Mayek", "Mende_Kikakui", "Meroitic_Cursive",
  "Meroitic_Hieroglyphs", "Miao", "Modi", "Mongolian", "Mro", "Multani", "Myanmar", "Nabataean",
  "Nag_Mundari", "Nandinagari", "New_Tai_Lue", "Newa", "Nko", "Nushu", "Nyiakeng_Puachue_Hmong",
  "Ogham", "Ol_Chiki", "Ol_Onal", "Old_Hungarian", "Old_Italic", "Old_North_Arabian", "Old_Permic",
  "Old_Persian", "Old_Sogdian", "Old_South_Arabian", "Old_Turkic", "Old_Uyghur", "Oriya", "Osage",
  "Osmanya", "Pahawh_Hmong", "Palmyrene", "Pau_Cin_Hau", "Phags_Pa", "Phoenician",
  "Psalter_Pahlavi", "Rejang", "Runic", "Samaritan", "Saurashtra", "Sharada", "Shavian", "Siddham",
  "Sidetic", "SignWriting", "Sinhala", "Sogdian", "Sora_Sompeng", "Soyombo", "Sundanese",
  "Sunuwar", "Syloti_Nagri", "Syriac", "Tagalog", "Tagbanwa", "Tai_Le", "Tai_Tham", "Tai_Viet",
  "Tai_Yo", "Takri", "Tamil", "Tangsa", "Tangut", "Telugu", "Thaana", "Thai", "Tibetan",
  "Tifinagh", "Tirhuta", "Todhri", "Tolong_Siki", "Toto", "Tulu_Tigalari", "Ugaritic", "Vai",
  "Vithkuqi", "Wancho", "Warang_Citi", "Yezidi", "Yi", "Zanabazar_Square"]

/-- The names of the binary properties. -/
def binaryProperties : List String := [
  "ASCII_Hex_Digit", "Bidi_Control", "Dash", "Deprecated", "Diacritic", "Extender", "Hex_Digit",
  "Hyphen", "IDS_Binary_Operator", "IDS_Trinary_Operator", "IDS_Unary_Operator",
  "ID_Compat_Math_Continue", "ID_Compat_Math_Start", "Ideographic", "Join_Control",
  "Logical_Order_Exception", "Modifier_Combining_Mark", "Noncharacter_Code_Point",
  "Other_Alphabetic", "Other_Default_Ignorable_Code_Point", "Other_Grapheme_Extend",
  "Other_ID_Continue", "Other_ID_Start", "Other_Lowercase", "Other_Math", "Other_Uppercase",
  "Pattern_Syntax", "Pattern_White_Space", "Prepended_Concatenation_Mark", "Quotation_Mark",
  "Radical", "Regional_Indicator", "STerm", "Sentence_Terminal", "Soft_Dotted",
  "Terminal_Punctuation", "Unified_Ideograph", "Variation_Selector", "White_Space"]

/-- The name is that of a category, a script or a property, letter by letter. -/
def isExactCategory (name : List Char) : Bool :=
  (generalCategories ++ scripts ++ binaryProperties).any fun s => s.toList = name

/-- The name without blanks, `_` and `-`, in lower case. -/
def looseName (name : List Char) : List Char :=
  (name.filter fun c => !(c = ' ' || c = '_' || c = '-')).map Char.toLower

/-- The name is that of a category or a script, or one of `Any`, `ASCII` and `Assigned`, up to case,
blanks, `_` and `-`. -/
def isLooseCategory (name : List Char) : Bool :=
  (["Any", "ASCII", "Assigned"] ++ generalCategories ++ longCategories ++ scripts).any fun s =>
    looseName s.toList = looseName name

end RegexBuilder
