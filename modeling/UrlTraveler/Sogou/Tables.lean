import UrlTraveler.Schemes.Aes
import UrlTraveler.Schemes.X86

/-! The five tables of the block function, byte by byte as they stand in the source.

        t5B3E18   2S S S 3S      t5B4218   3S 2S S S      t5B4618   S 3S 2S S
        t5B4A18   S S 3S 2S      t5B4E18   S S S S

    Entry `b` is read as a little-endian dword; S is the S-box of `b`, and the bytes above run from
    the most significant to the least. -/

namespace UrlTraveler.Sogou
open Aes hiding Byte Word State
open X86

/-- The bytes of rows of `n` bytes each. -/
def rowBytes (n : ℕ) (rows : List ℕ) : List (BitVec 8) :=
  rows.flatMap fun r => (List.range n).map fun i => BitVec.ofNat 8 (r >>> (8 * (n - 1 - i)))

/-- `__5B4E18`. -/
def t5B4E18 : List (BitVec 8) := rowBytes 32
  [ 0x636363637C7C7C7C777777777B7B7B7BF2F2F2F26B6B6B6B6F6F6F6FC5C5C5C5,
    0x3030303001010101676767672B2B2B2BFEFEFEFED7D7D7D7ABABABAB76767676,
    0xCACACACA82828282C9C9C9C97D7D7D7DFAFAFAFA5959595947474747F0F0F0F0,
    0xADADADADD4D4D4D4A2A2A2A2AFAFAFAF9C9C9C9CA4A4A4A472727272C0C0C0C0,
    0xB7B7B7B7FDFDFDFD9393939326262626363636363F3F3F3FF7F7F7F7CCCCCCCC,
    0x34343434A5A5A5A5E5E5E5E5F1F1F1F171717171D8D8D8D83131313115151515,
    0x04040404C7C7C7C723232323C3C3C3C31818181896969696050505059A9A9A9A,
    0x070707071212121280808080E2E2E2E2EBEBEBEB27272727B2B2B2B275757575,
    0x09090909838383832C2C2C2C1A1A1A1A1B1B1B1B6E6E6E6E5A5A5A5AA0A0A0A0,
    0x525252523B3B3B3BD6D6D6D6B3B3B3B329292929E3E3E3E32F2F2F2F84848484,
    0x53535353D1D1D1D100000000EDEDEDED20202020FCFCFCFCB1B1B1B15B5B5B5B,
    0x6A6A6A6ACBCBCBCBBEBEBEBE393939394A4A4A4A4C4C4C4C58585858CFCFCFCF,
    0xD0D0D0D0EFEFEFEFAAAAAAAAFBFBFBFB434343434D4D4D4D3333333385858585,
    0x45454545F9F9F9F9020202027F7F7F7F505050503C3C3C3C9F9F9F9FA8A8A8A8,
    0x51515151A3A3A3A3404040408F8F8F8F929292929D9D9D9D38383838F5F5F5F5,
    0xBCBCBCBCB6B6B6B6DADADADA2121212110101010FFFFFFFFF3F3F3F3D2D2D2D2,
    0xCDCDCDCD0C0C0C0C13131313ECECECEC5F5F5F5F979797974444444417171717,
    0xC4C4C4C4A7A7A7A77E7E7E7E3D3D3D3D646464645D5D5D5D1919191973737373,
    0x60606060818181814F4F4F4FDCDCDCDC222222222A2A2A2A9090909088888888,
    0x46464646EEEEEEEEB8B8B8B814141414DEDEDEDE5E5E5E5E0B0B0B0BDBDBDBDB,
    0xE0E0E0E0323232323A3A3A3A0A0A0A0A4949494906060606242424245C5C5C5C,
    0xC2C2C2C2D3D3D3D3ACACACAC626262629191919195959595E4E4E4E479797979,
    0xE7E7E7E7C8C8C8C8373737376D6D6D6D8D8D8D8DD5D5D5D54E4E4E4EA9A9A9A9,
    0x6C6C6C6C56565656F4F4F4F4EAEAEAEA656565657A7A7A7AAEAEAEAE08080808,
    0xBABABABA78787878252525252E2E2E2E1C1C1C1CA6A6A6A6B4B4B4B4C6C6C6C6,
    0xE8E8E8E8DDDDDDDD747474741F1F1F1F4B4B4B4BBDBDBDBD8B8B8B8B8A8A8A8A,
    0x707070703E3E3E3EB5B5B5B5666666664848484803030303F6F6F6F60E0E0E0E,
    0x616161613535353557575757B9B9B9B986868686C1C1C1C11D1D1D1D9E9E9E9E,
    0xE1E1E1E1F8F8F8F8989898981111111169696969D9D9D9D98E8E8E8E94949494,
    0x9B9B9B9B1E1E1E1E87878787E9E9E9E9CECECECE5555555528282828DFDFDFDF,
    0x8C8C8C8CA1A1A1A1898989890D0D0D0DBFBFBFBFE6E6E6E64242424268686868,
    0x41414141999999992D2D2D2D0F0F0F0FB0B0B0B054545454BBBBBBBB16161616 ]

/-- `__5B4618`. -/
def t5B4618 : List (BitVec 8) := rowBytes 32
  [ 0x63C6A5637CF8847C77EE99777BF68D7BF2FF0DF26BD6BD6B6FDEB16FC59154C5,
    0x306050300102030167CEA9672B567D2BFEE719FED7B562D7AB4DE6AB76EC9A76,
    0xCA8F45CA821F9D82C98940C97DFA877DFAEF15FA59B2EB59478EC947F0FB0BF0,
    0xAD41ECADD4B367D4A25FFDA2AF45EAAF9C23BF9CA453F7A472E49672C09B5BC0,
    0xB775C2B7FDE11CFD933DAE93264C6A26366C5A363F7E413FF7F502F7CC834FCC,
    0x34685C34A551F4A5E5D134E5F1F908F171E29371D8AB73D831625331152A3F15,
    0x04080C04C79552C723466523C39D5EC3183028189637A196050A0F059A2FB59A,
    0x070E090712243612801B9B80E2DF3DE2EBCD26EB274E6927B27FCDB275EA9F75,
    0x09121B09831D9E832C58742C1A342E1A1B362D1B6EDCB26E5AB4EE5AA05BFBA0,
    0x52A4F6523B764D3BD6B761D6B37DCEB329527B29E3DD3EE32F5E712F84139784,
    0x53A6F553D1B968D100000000EDC12CED20406020FCE31FFCB179C8B15BB6ED5B,
    0x6AD4BE6ACB8D46CBBE67D9BE39724B394A94DE4A4C98D44C58B0E858CF854ACF,
    0xD0BB6BD0EFC52AEFAA4FE5AAFBED16FB4386C5434D9AD74D3366553385119485,
    0x458ACF45F9E910F9020406027FFE817F50A0F0503C78443C9F25BA9FA84BE3A8,
    0x51A2F351A35DFEA34080C0408F058A8F923FAD929D21BC9D38704838F5F104F5,
    0xBC63DFBCB677C1B6DAAF75DA2142632110203010FFE51AFFF3FD0EF3D2BF6DD2,
    0xCD814CCD0C18140C13263513ECC32FEC5FBEE15F9735A2974488CC44172E3917,
    0xC49357C4A755F2A77EFC827E3D7A473D64C8AC645DBAE75D19322B1973E69573,
    0x60C0A060811998814F9ED14FDCA37FDC224466222A547E2A903BAB90880B8388,
    0x468CCA46EEC729EEB86BD3B814283C14DEA779DE5EBCE25E0B161D0BDBAD76DB,
    0xE0DB3BE0326456323A744E3A0A141E0A4992DB49060C0A0624486C245CB8E45C,
    0xC29F5DC2D3BD6ED3AC43EFAC62C4A6629139A8919531A495E4D337E479F28B79,
    0xE7D532E7C88B43C8376E59376DDAB76D8D018C8DD5B164D54E9CD24EA949E0A9,
    0x6CD8B46C56ACFA56F4F307F4EACF25EA65CAAF657AF48E7AAE47E9AE08101808,
    0xBA6FD5BA78F08878254A6F252E5C722E1C38241CA657F1A6B473C7B4C69751C6,
    0xE8CB23E8DDA17CDD74E89C741F3E211F4B96DD4BBD61DCBD8B0D868B8A0F858A,
    0x70E090703E7C423EB571C4B566CCAA664890D84803060503F6F701F60E1C120E,
    0x61C2A361356A5F3557AEF957B969D0B986179186C19958C11D3A271D9E27B99E,
    0xE1D938E1F8EB13F8982BB3981122331169D2BB69D9A970D98E07898E9433A794,
    0x9B2DB69B1E3C221E87159287E9C920E9CE8749CE55AAFF5528507828DFA57ADF,
    0x8C038F8CA159F8A1890980890D1A170DBF65DABFE6D731E64284C64268D0B868,
    0x4182C3419929B0992D5A772D0F1E110FB07BCBB054A8FC54BB6DD6BB162C3A16 ]

/-- `__5B4218`. -/
def t5B4218 : List (BitVec 8) := rowBytes 32
  [ 0x6363C6A57C7CF8847777EE997B7BF68DF2F2FF0D6B6BD6BD6F6FDEB1C5C59154,
    0x30306050010102036767CEA92B2B567DFEFEE719D7D7B562ABAB4DE67676EC9A,
    0xCACA8F4582821F9DC9C989407D7DFA87FAFAEF155959B2EB47478EC9F0F0FB0B,
    0xADAD41ECD4D4B367A2A25FFDAFAF45EA9C9C23BFA4A453F77272E496C0C09B5B,
    0xB7B775C2FDFDE11C93933DAE26264C6A36366C5A3F3F7E41F7F7F502CCCC834F,
    0x3434685CA5A551F4E5E5D134F1F1F9087171E293D8D8AB733131625315152A3F,
    0x0404080CC7C7955223234665C3C39D5E18183028969637A105050A0F9A9A2FB5,
    0x07070E091212243680801B9BE2E2DF3DEBEBCD2627274E69B2B27FCD7575EA9F,
    0x0909121B83831D9E2C2C58741A1A342E1B1B362D6E6EDCB25A5AB4EEA0A05BFB,
    0x5252A4F63B3B764DD6D6B761B3B37DCE2929527BE3E3DD3E2F2F5E7184841397,
    0x5353A6F5D1D1B96800000000EDEDC12C20204060FCFCE31FB1B179C85B5BB6ED,
    0x6A6AD4BECBCB8D46BEBE67D93939724B4A4A94DE4C4C98D45858B0E8CFCF854A,
    0xD0D0BB6BEFEFC52AAAAA4FE5FBFBED16434386C54D4D9AD73333665585851194,
    0x45458ACFF9F9E910020204067F7FFE815050A0F03C3C78449F9F25BAA8A84BE3,
    0x5151A2F3A3A35DFE404080C08F8F058A92923FAD9D9D21BC38387048F5F5F104,
    0xBCBC63DFB6B677C1DADAAF752121426310102030FFFFE51AF3F3FD0ED2D2BF6D,
    0xCDCD814C0C0C181413132635ECECC32F5F5FBEE1979735A2444488CC17172E39,
    0xC4C49357A7A755F27E7EFC823D3D7A476464C8AC5D5DBAE71919322B7373E695,
    0x6060C0A0818119984F4F9ED1DCDCA37F222244662A2A547E90903BAB88880B83,
    0x46468CCAEEEEC729B8B86BD31414283CDEDEA7795E5EBCE20B0B161DDBDBAD76,
    0xE0E0DB3B323264563A3A744E0A0A141E494992DB06060C0A2424486C5C5CB8E4,
    0xC2C29F5DD3D3BD6EACAC43EF6262C4A6919139A8959531A4E4E4D3377979F28B,
    0xE7E7D532C8C88B4337376E596D6DDAB78D8D018CD5D5B1644E4E9CD2A9A949E0,
    0x6C6CD8B45656ACFAF4F4F307EAEACF256565CAAF7A7AF48EAEAE47E908081018,
    0xBABA6FD57878F08825254A6F2E2E5C721C1C3824A6A657F1B4B473C7C6C69751,
    0xE8E8CB23DDDDA17C7474E89C1F1F3E214B4B96DDBDBD61DC8B8B0D868A8A0F85,
    0x7070E0903E3E7C42B5B571C46666CCAA484890D803030605F6F6F7010E0E1C12,
    0x6161C2A335356A5F5757AEF9B9B969D086861791C1C199581D1D3A279E9E27B9,
    0xE1E1D938F8F8EB1398982BB3111122336969D2BBD9D9A9708E8E0789949433A7,
    0x9B9B2DB61E1E3C2287871592E9E9C920CECE87495555AAFF28285078DFDFA57A,
    0x8C8C038FA1A159F8898909800D0D1A17BFBF65DAE6E6D731424284C66868D0B8,
    0x414182C3999929B02D2D5A770F0F1E11B0B07BCB5454A8FCBBBB6DD616162C3A ]

/-- `__5B4A18`. -/
def t5B4A18 : List (BitVec 8) := rowBytes 32
  [ 0xC6A56363F8847C7CEE997777F68D7B7BFF0DF2F2D6BD6B6BDEB16F6F9154C5C5,
    0x6050303002030101CEA96767567D2B2BE719FEFEB562D7D74DE6ABABEC9A7676,
    0x8F45CACA1F9D82828940C9C9FA877D7DEF15FAFAB2EB59598EC94747FB0BF0F0,
    0x41ECADADB367D4D45FFDA2A245EAAFAF23BF9C9C53F7A4A4E49672729B5BC0C0,
    0x75C2B7B7E11CFDFD3DAE93934C6A26266C5A36367E413F3FF502F7F7834FCCCC,
    0x685C343451F4A5A5D134E5E5F908F1F1E2937171AB73D8D8625331312A3F1515,
    0x080C04049552C7C7466523239D5EC3C33028181837A196960A0F05052FB59A9A,
    0x0E090707243612121B9B8080DF3DE2E2CD26EBEB4E6927277FCDB2B2EA9F7575,
    0x121B09091D9E838358742C2C342E1A1A362D1B1BDCB26E6EB4EE5A5A5BFBA0A0,
    0xA4F65252764D3B3BB761D6D67DCEB3B3527B2929DD3EE3E35E712F2F13978484,
    0xA6F55353B968D1D100000000C12CEDED40602020E31FFCFC79C8B1B1B6ED5B5B,
    0xD4BE6A6A8D46CBCB67D9BEBE724B393994DE4A4A98D44C4CB0E85858854ACFCF,
    0xBB6BD0D0C52AEFEF4FE5AAAAED16FBFB86C543439AD74D4D6655333311948585,
    0x8ACF4545E910F9F904060202FE817F7FA0F0505078443C3C25BA9F9F4BE3A8A8,
    0xA2F351515DFEA3A380C04040058A8F8F3FAD929221BC9D9D70483838F104F5F5,
    0x63DFBCBC77C1B6B6AF75DADA4263212120301010E51AFFFFFD0EF3F3BF6DD2D2,
    0x814CCDCD18140C0C26351313C32FECECBEE15F5F35A2979788CC44442E391717,
    0x9357C4C455F2A7A7FC827E7E7A473D3DC8AC6464BAE75D5D322B1919E6957373,
    0xC0A06060199881819ED14F4FA37FDCDC44662222547E2A2A3BAB90900B838888,
    0x8CCA4646C729EEEE6BD3B8B8283C1414A779DEDEBCE25E5E161D0B0BAD76DBDB,
    0xDB3BE0E064563232744E3A3A141E0A0A92DB49490C0A0606486C2424B8E45C5C,
    0x9F5DC2C2BD6ED3D343EFACACC4A6626239A8919131A49595D337E4E4F28B7979,
    0xD532E7E78B43C8C86E593737DAB76D6D018C8D8DB164D5D59CD24E4E49E0A9A9,
    0xD8B46C6CACFA5656F307F4F4CF25EAEACAAF6565F48E7A7A47E9AEAE10180808,
    0x6FD5BABAF08878784A6F25255C722E2E38241C1C57F1A6A673C7B4B49751C6C6,
    0xCB23E8E8A17CDDDDE89C74743E211F1F96DD4B4B61DCBDBD0D868B8B0F858A8A,
    0xE09070707C423E3E71C4B5B5CCAA666690D8484806050303F701F6F61C120E0E,
    0xC2A361616A5F3535AEF9575769D0B9B9179186869958C1C13A271D1D27B99E9E,
    0xD938E1E1EB13F8F82BB3989822331111D2BB6969A970D9D907898E8E33A79494,
    0x2DB69B9B3C221E1E15928787C920E9E98749CECEAAFF555550782828A57ADFDF,
    0x038F8C8C59F8A1A1098089891A170D0D65DABFBFD731E6E684C64242D0B86868,
    0x82C3414129B099995A772D2D1E110F0F7BCBB0B0A8FC54546DD6BBBB2C3A1616 ]

/-- `__5B3E18`. -/
def t5B3E18 : List (BitVec 8) := rowBytes 32
  [ 0xA56363C6847C7CF8997777EE8D7B7BF60DF2F2FFBD6B6BD6B16F6FDE54C5C591,
    0x5030306003010102A96767CE7D2B2B5619FEFEE762D7D7B5E6ABAB4D9A7676EC,
    0x45CACA8F9D82821F40C9C989877D7DFA15FAFAEFEB5959B2C947478E0BF0F0FB,
    0xECADAD4167D4D4B3FDA2A25FEAAFAF45BF9C9C23F7A4A453967272E45BC0C09B,
    0xC2B7B7751CFDFDE1AE93933D6A26264C5A36366C413F3F7E02F7F7F54FCCCC83,
    0x5C343468F4A5A55134E5E5D108F1F1F9937171E273D8D8AB533131623F15152A,
    0x0C04040852C7C795652323465EC3C39D28181830A19696370F05050AB59A9A2F,
    0x0907070E361212249B80801B3DE2E2DF26EBEBCD6927274ECDB2B27F9F7575EA,
    0x1B0909129E83831D742C2C582E1A1A342D1B1B36B26E6EDCEE5A5AB4FBA0A05B,
    0xF65252A44D3B3B7661D6D6B7CEB3B37D7B2929523EE3E3DD712F2F5E97848413,
    0xF55353A668D1D1B9000000002CEDEDC1602020401FFCFCE3C8B1B179ED5B5BB6,
    0xBE6A6AD446CBCB8DD9BEBE674B393972DE4A4A94D44C4C98E85858B04ACFCF85,
    0x6BD0D0BB2AEFEFC5E5AAAA4F16FBFBEDC5434386D74D4D9A5533336694858511,
    0xCF45458A10F9F9E906020204817F7FFEF05050A0443C3C78BA9F9F25E3A8A84B,
    0xF35151A2FEA3A35DC04040808A8F8F05AD92923FBC9D9D214838387004F5F5F1,
    0xDFBCBC63C1B6B67775DADAAF63212142301010201AFFFFE50EF3F3FD6DD2D2BF,
    0x4CCDCD81140C0C18351313262FECECC3E15F5FBEA2979735CC4444883917172E,
    0x57C4C493F2A7A755827E7EFC473D3D7AAC6464C8E75D5DBA2B191932957373E6,
    0xA06060C098818119D14F4F9E7FDCDCA3662222447E2A2A54AB90903B8388880B,
    0xCA46468C29EEEEC7D3B8B86B3C14142879DEDEA7E25E5EBC1D0B0B1676DBDBAD,
    0x3BE0E0DB563232644E3A3A741E0A0A14DB4949920A06060C6C242448E45C5CB8,
    0x5DC2C29F6ED3D3BDEFACAC43A66262C4A8919139A495953137E4E4D38B7979F2,
    0x32E7E7D543C8C88B5937376EB76D6DDA8C8D8D0164D5D5B1D24E4E9CE0A9A949,
    0xB46C6CD8FA5656AC07F4F4F325EAEACFAF6565CA8E7A7AF4E9AEAE4718080810,
    0xD5BABA6F887878F06F25254A722E2E5C241C1C38F1A6A657C7B4B47351C6C697,
    0x23E8E8CB7CDDDDA19C7474E8211F1F3EDD4B4B96DCBDBD61868B8B0D858A8A0F,
    0x907070E0423E3E7CC4B5B571AA6666CCD84848900503030601F6F6F7120E0E1C,
    0xA36161C25F35356AF95757AED0B9B9699186861758C1C199271D1D3AB99E9E27,
    0x38E1E1D913F8F8EBB398982B33111122BB6969D270D9D9A9898E8E07A7949433,
    0xB69B9B2D221E1E3C9287871520E9E9C949CECE87FF5555AA782828507ADFDFA5,
    0x8F8C8C03F8A1A15980898909170D0D1ADABFBF6531E6E6D7C6424284B86868D0,
    0xC3414182B0999929772D2D5A110F0F1ECBB0B07BFC5454A8D6BBBB6D3A16162C ]

/-- `InitArray2` of `calc_encode_page`: the round keys, one to a row. -/
def InitArray2 : List (BitVec 8) := rowBytes 16
  [ 0x00000014E8DD5F38C05BAB8FB02559BC,
    0x65E73FDE8D3A60E64D61CB69FD4492D5,
    0x66B32493EB894475A6E88F1C5BAC1DC9,
    0xBB8AB5335003F146F6EB7E5AAD476393,
    0x671F15C0371CE486C1F79ADC6CB0F94F,
    0xE34FF249D45316CF15A48C137914755C,
    0xA9F908F47DAA1E3B680E9228111AE774,
    0x3B7BAA2046D1B41B2EDF26333FC5C147,
    0x9B0E0CD8DDDFB8C3F3009EF0CCC55FB7,
    0x3245AA0CEF9A12CF1C9A8C3FD05FD388,
    0xF635655C19AF77930535FBACD56A2824 ]

/-! ### What is in the tables -/

theorem dwords_t5B3E18 :
    dwords t5B3E18 = (List.range 256).map fun n => te 0 (BitVec.ofNat 8 n) := by decide +kernel

theorem dwords_t5B4218 :
    dwords t5B4218 = (List.range 256).map fun n => te 1 (BitVec.ofNat 8 n) := by decide +kernel

theorem dwords_t5B4618 :
    dwords t5B4618 = (List.range 256).map fun n => te 2 (BitVec.ofNat 8 n) := by decide +kernel

theorem dwords_t5B4A18 :
    dwords t5B4A18 = (List.range 256).map fun n => te 3 (BitVec.ofNat 8 n) := by decide +kernel

theorem dwords_t5B4E18 : dwords t5B4E18 =
    (List.range 256).map fun n => pack fun _ => sbox (BitVec.ofNat 8 n) := by decide +kernel

end UrlTraveler.Sogou
