import TreeLint.Text.CodeClass

/-!
# Where words of a text end

The words of patterns and predicates, such as `where` and `or`, end where no part of a word follows. The parts of words
are the letters, marks, decimal digits and connectors of all scripts and the two joiners; numerals that are no digits,
such as a superscript, are none. The tables follow Unicode 17.
-/

namespace TreeLint

def wordPartRanges : List (Nat × Nat) :=
  rangesFrom 0 <| unpack
    [0x11996296B352B19021212024D190D7035C24DA229A22A923A20222070233124E92A0200947939519F26B26A60503900E1B2051B09190E,
     0x112625A315522302039393421501933130933402625A313722A219308A229909627A62953B3A5D303055E794C932F1A032A2193725C95,
     0x1412021432245211A02193421520923130934212625A313722262919330A0322221934212625A22209224979090230904231542031212,
     0x1391934093642222E22249592219332261093222093421926A2227231A19333122210932220937926A222491A19790703322445394241,
     0x159971992F0293C21A23A53C2195020204919710B01C331926202436A2027A2420210D1926961F69131977202550463020927A41A2225,
     0x1043A959122249593A495A295A0929429961B20A33D994535A91A791C232893320F2693320263320C3320D33202633249D22D306025C3,
     0x162930E419197E593E959092A1944995A3935D190691972934B26F53B7C1971B53D49437C393953926B3958962D090B9729222C19315,
     0x10546332923202020744021930502A0C4E491A06905B04A12E10A62264955334622402624E36B202020273535C3535A8966C221A232D,
     0x11889791E7B2A5B922D6321B9223135A954342692B26AF00E7B2626262626262626297A0A0097E306025C590974CB7ACB3E6DC90D2A,
     0x146A719359296E26B7297908944B593C30E2047A71939589593E4A056E5A1A936C93096C2E921922E5A3B449C35D48949ABD1897FEC9,
     0x11A795391D5E37F3A2DD2C3D921212024249239645967C1D935DD58C8A0E56A593CEDA7193122F975922D26262953535394379321B099,
     0x13D42753C35B62D65B697B0C00A0E44B38A019A4E6892F93C593692122A21B2394C235353540B9491B2051B09194A68A241C21B1479,
     0x17C1B71B395A39122A2896B296A396A304123D20356890921D251B7395A296EC593E41262692292126269229593E197C53C53C71935BA,
     0x15A0C0C190392C3E51A14121D3FB6A2445C719197C692E692E0F0997D91A692A395A395E2B5B274C4B44B1C05234B22276123189177E,
     0x13131924212625A31372371962F09192692320267F374C21A4C024923548929033C19351924E719090B690093F29790C689296A4B4A3D,
     0x12F2FA671956932B5B3A719090F7C1949040893C50B0935E7CA1919025897B351962996B169723203021925C20302194944636607032,
     0x1212043D21262995925A35B1B190A0924D2097190A0C1B970D90993A04199190196F4B12735D377891959093125B212730376A1996C9,
     0x178BB1F2FAD9689962BEF395A1A7D8A0A0C9599D38B2A6D97C91BE90A906A92969440D20A296A7EB1953D7190952124C21257191909,
     0x126236FF8A2E92C97B2D5ABE9296491211890A090F52995D0B30B1C7F78B1944D1EE2A64A2919593296E49435B719269971926B090F89,
     0x17332089262023923313031268924A94FE25AA37B637195447B896A35D7889192A9891419090944962D958CC39E193790326B00A2CC21,
     0x15944D1E902C5F64212630A266AB576B1A9A69247A0790191E56E18891E3720B26B20B26B20B26B20B26B20B20B33AD2640242323B262,
     0x10202020203021222020205070202321920302122B237CAA1953992D64948B2692123261CB1195A26B68B2D7AB1D7AF1F2A6B28D05193,
     0x11DC8A629D993CFA5B893CEC5D990A0ECE9359AB935BC891C7BBBA9788A197C9D1B71B71B5E990A242260A219202323262330212,
     0x17DB78AECDA]

def isWordPart (code : Nat) : Bool :=
  inRanges wordPartRanges code

def scriptDigitRanges : List (Nat × Nat) :=
  rangesFrom 0 <| unpack
    [0x15DC197C1978DB19789197AC19789197E9191C9197E9197E9197E9197E9197E9197E9197E9197E9197E9195BE1978B1978A197C8B190E,
     0x1195F1918A195BC91971978AC1978EA197AC9D197AE197A9197A1978B197C197CA91978FC891971978A197A9197EA197197CA1918A19,
     0x1197A891978A197A9197CCC197AF8C197CD197E19789197EB197A9197AA9197C9197CE195993A7197C9197ED197E9197AD197AC191AA,
     0x1197AA99196AD9190FB197EF197CE1918DC1E5ABD197EDFD]

def isScriptDigit (code : Nat) : Bool :=
  inRanges scriptDigitRanges code

end TreeLint
