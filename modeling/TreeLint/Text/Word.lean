import TreeLint.Text.CodeClass

/-!
# Words, digits and identifiers

* a word character is a letter or a number of any script, or the underscore;
* a decimal digit belongs to one of the runs of ten digits `0` to `9` of a script;
* an identifier starts with a letter, a letter number or the underscore and goes on with those, decimal digits,
  marks and connectors.

The tables follow Unicode 14.
-/

namespace TreeLint

def letterOrNumberRanges : List (Nat × Nat) :=
  rangesFrom 0 <| unpack
    [0x1022C9215196A2D6D352B0990D7035C25CA1929A22A923A2022207023312428A0200947939519F26B26A222140210900E1B71B09190E,
     0x103533952216901A043402625A31375792195190903A045E3F1D2A527A629090B0B04029055A6051292D790490B96B5B201A03690910A,
     0x107A3942414120214322452049621952217B044212625A31374902919510A03A044212625A222091A2319090230C121212625A315519,
     0x129659127D2A190C63020927A41A6522A51922601A030D222092A121951210C04421926A2227502619195130323B047926A22273A496A,
     0x120C3320D33202633249D22D306025C719205949520914043557295A2D4E944B3C27593A0C01C331929024302912192027A2420210D19,
     0x16B395896021C34090B97197A1971940504C3E0A2249791A792A691A0929429961B20A33D994535A91A7943A792893320F26933202633,
     0x1202020273535C3535AC1897FA604125232D232D090930E4195B3C3B7E695B2D19472A6D6B9069197194D4E296A6C2971B53D49437C0D,
     0x1306025C302914374CB5D9A5B7E995A7993F7AB91F20546332923202020744021930506C94972965314E962264955334622402624E36B,
     0x149ABD1897FEC918D690D191C69277B191C791E7B39345B922D6321B92275A9543409092B26AF01A9626262626262626296A1A0097E,
     0x157220B0D20B247295B6D094B2B6A395C2120451B195B1E793E395696A23222791B4202167F36C93090D79936B1A6D5A3B449C35D489,
     0x12C3D92121202424921920645967C1D935DD58C8A0E56A593CEDA719692E975922D262629535355920929321B02034314021E4046A719,
     0x135B395C65B293C52B1A0E44B5EB12A0F594D592F93C593692122A21B2394C235353540B9491B71B09194A68A245E9391D5E37F3A2DD,
     0x11B50C6122A1E09195C36B36A304123D20356890921D251B7395A296EC4891262692292126269229593E197C53C53C71935BA3D42753C,
     0x13B7D1A4B3495A197C799171D26B7CC19591D092E692E0F0991A960B1B62B35A395E1A473B271C7B26B0B09394B22230A6D33A57E789,
     0x1044212625A313749192A6D09192692320265A90B21A493A50229493797D59042C190305190A3C2919090B1C4D6903125B3B4E596A5A,
     0x1778919790200A7A21273037592A95E93D2FA65396A2B7E19090692D7C194905A7D5C32D6D7CA19190215A7D7B2619633A4E7BA45903A,
     0x12A6D97C91BE94D4A0A06FA2A7EC19090797B21257192906A5C21261E95B64B0A02A4C20909C0993A04A5D4906A0097C3905B0201A6C3,
     0x15ABA197EFB95B02118949389062992D96A91EA92A64A262195931A7D3A5B719269971926B090F892FE8A68992AFF6D8A0A0C9599D38B,
     0x13AD2640242323B2627332089262023923313031268924A909A0B5D93A789B919090944962D958CC39E1932A26D2CC2126230DB9A093D,
     0x132222F0BC91950093891E09348B2692123267CBA1953D3A5B28D051936394D2CF6B18CB1E3720B26B20B26B20B26B20B26B20B20B3,
     0x11C7BBBA9788A194CBD4958990A242260A2192023232623302120202020203021222020205070202321920302122B2338B6924D599,
     0x129D993CFA5B890C8E0ECE97918AB935BB090F889]

def isLetterOrNumber (code : Nat) : Bool :=
  inRanges letterOrNumberRanges code

def isWord (code : Nat) : Bool :=
  isLetterOrNumber code || code == 95

/-- The ranges of the decimal digits; each is made of runs of ten, in the order of their values. -/
def decimalRanges : List (Nat × Nat) :=
  rangesFrom 0 <| unpack
    [0x15DC197C1978DB19789197AC19789197E9191C9197E9197E9197E9197E9197E9197E9197E9197E9197E9195BE1978B1978A197C8B190E,
     0x11AA195F1918A195DC91978AC1978EA197AC9D197AE197A9197A1978B197C197CA91978FC891971978A197A9197EA197197CA1918A19,
     0x1197AA99197A9B197CE1918DC1E5E9EE1978A197A9197EAEC19789197EB197EB9197C9197CE197C9197C9197ED197E9197AD197AC19]

def isDecimal (code : Nat) : Bool :=
  inRanges decimalRanges code

def decimalValue? (code : Nat) : Option Nat :=
  (decimalRanges.find? fun (lo, hi) => lo ≤ code && code ≤ hi).map fun (lo, _) => (code - lo) % 10

def numberRanges : List (Nat × Nat) :=
  rangesFrom 0 <| unpack
    [0x11959C3A789197E9191C9196D92A0961D9190D9619194E9497D953197E9197E9195D955197E9195BE1978B1978A192CEA230611F9190E,
     0x1029C902DDA5B7E995A7993F7AB9432E78B1975407A8A1971978A197A9197EA197196CA2918A195DC197A197190EB22ED93A0AB919789,
     0x101906B35C2B6AD12A0F594D6DF197AC9D197AE197A9197A1978B197C193BA518D195FA191CD9F690D191C69277B1939A30BD279092B,
     0x1191AA195F1918A5B78A61E933D197BA6B7CC191E539D62D71B71D9449927B15E091895D379311CA57A4499090D62B77DE91939B478A,
     0x15D93A299AE6A7BC9621978A197A9192EFAC6D94D8A4A7A8919789194CB4B7EB9196B92A5CE397C9197C9197ED197E9197AD194FB3A09,
     0x1194CBD4938F96924D59932222F0BC91918A0969FA197CE1918DC1E6A9A0B]

def isLetter (code : Nat) : Bool :=
  isLetterOrNumber code && !inRanges numberRanges code

def identifierStartAdded : List (Nat × Nat) :=
  [(95, 95), (5870, 5872), (6277, 6278), (8472, 8472), (8494, 8494), (8544, 8578), (8581, 8584),
   (12295, 12295), (12321, 12329), (12344, 12346), (42726, 42735), (65856, 65908), (66369, 66369),
   (66378, 66378), (66513, 66517), (74752, 74862)]

def identifierStartRemoved : List (Nat × Nat) :=
  [(890, 890), (3635, 3635), (3763, 3763), (11823, 11823), (64606, 64611), (65018, 65019), (65136, 65136),
   (65138, 65138), (65140, 65140), (65142, 65142), (65144, 65144), (65146, 65146), (65148, 65148),
   (65150, 65150), (65438, 65439)]

/-- Code points besides letters and numbers that may go on an identifier: marks and connectors. -/
def identifierPartAdded : List (Nat × Nat) :=
  rangesFrom 0 <| unpack
    [0x1621A227E0C27A3D75F24D422209231B029093F294B92B7B04C32135366C901A4A1E29199021212024D29C44FB00B7D9199900B907B9,
     0x114910932226200F41D029322444F07B13920923136201F2257A15A22227201F2490417B0423154201F2303B13902923136201F26B139,
     0x12530B3A5C90293C2296123A2E15020204B139954909303C97596306F13A720255078926B13902932226210F35B14910932226201F26B,
     0x13A1E591F497B259097C0A0E42E792591E034B2192F44BB395397E903C16E90226D0297B18917B16B25B33EE9208B9339023969346322,
     0x1691A3B1A3E14A90540B050401AC11A911C19505AFAF12D953D897B1C9069A218FD06A00D39405494F904A108997F78B2307054A221BA,
     0x10521D3612278AB46AA03CB06FA900EB21B14791A792CB901ECFC1275DB1642D0216132203E26D1190595948905C590E35D492B77C0,
     0x11A18B446313902923136210F36A391CA07395B912319591E25905D11A595C26F009296D3391302D696E23F932E292BA148E36F8916CA,
     0x143890262120453F95925A3A97276AE797D29290193261D195B0463669A1202331256EB6918C696C9493D90A3A914B09364DB3A2A900B,
     0x168C4212630A261ADA69247A0790191E56E4FEB25AA37B637195447B896A35D2C99914DAEC14902A93096E201B8A64F42FFDC34BD4212,
     0x17DB6EEB98B66D961CFA36F00FD6]

def identifierPartRemoved : List (Nat × Nat) :=
  rangesFrom 0 <| unpack
    [0x139A33CD902EC02DDA5B7E995A7993F7AB902D7978B1975407E9C194E9A297F8A192EE092A62BB668A21F951FD52F9B04FA9230612EA,
     0x115E091895D379311CA57A4499090D62B75ECA35C2B6AD12A32894D19A90202020202020205E917AE51D8AD51EDAF690D191C69277B19,
     0x122F2CE90979DA90B5D93A299AE6A7BC9678EDC4A4AD92A0DD9097DE168DA3A4FD3A78A61E933D197BA6B1CD539D62D71B71D9449927B,
     0x14938F96924D599322]

def isIdentifierStart (code : Nat) : Bool :=
  (isLetter code && !inRanges identifierStartRemoved code) || inRanges identifierStartAdded code

def isIdentifierPart (code : Nat) : Bool :=
  (isLetterOrNumber code && !inRanges identifierPartRemoved code) || inRanges identifierPartAdded code

end TreeLint
